import PeerChat.Bridge.Enrollment
import PeerChat.System.Bridge

/-! Codex sessions that are linked to each other. Each is a bridge of its own, with its own database,
processes and machine; what joins them are the frames that one writes and another reads, and the key
under which each is enrolled by the others. -/
namespace PeerChat.Mesh
open Python Wire Interleaving

/-- A session: its Codex home, resolved and in UTF-8, and its thread. -/
structure Session where
  home : Bytes
  thread : Str

/-- The key under which the others know a session. -/
def Session.key (s : Session) : Str :=
  str "codex:" ++ (Sha256.hexdigest s.home).take 16 ++ str ":" ++ s.thread

lemma Session.key_ne (s : Session) : s.key ≠ [] := by
  intro h
  have hcodex : str "codex:" = [] :=
    (List.append_eq_nil_iff.mp (List.append_eq_nil_iff.mp (List.append_eq_nil_iff.mp h).1).1).1
  exact absurd hcodex (by decide)

/-- A run starts this process. -/
def Starts (es : Schedule) (p : Process) : Prop := ∃ n, .start n p ∈ es

section
variable (K : Str → Prop)

/-- A record that is a Codex peer's, or of no session: no process identity is a session's key. -/
def LinkedRecord (r : PeerRecord) : Prop :=
  r.kind = some .codex ∨ ∀ identity, r.identity = some identity → ¬ K identity

/-- All records that a table holds are such. -/
def LinkedTable (t : PeerTable) : Prop := ∀ r, t.Holds r → LinkedRecord K r

variable {K} {m : Machine}

/-- The normal form of a record: a session's key is that of a Codex peer. -/
lemma LinkedRecord.normalise {r : PeerRecord} {p : Str × PeerRecord} (h : LinkedRecord K r)
    (hp : normalise m r = some p) : LinkedRecord K p.2 ∧ (K p.1 → p.2.kind = some .codex) := by
  unfold PeerChat.normalise at hp
  dsimp only at hp
  split at hp
  · cases hp
  · rename_i hkind
    split at hp
    · split_ifs at hp
      obtain ⟨key,-,rfl⟩ := Option.map_eq_some_iff.mp hp
      exact ⟨Or.inl hkind,fun _ => hkind⟩
    · cases hp
  · rename_i hcodex
    have hidentity := h.resolve_left hcodex
    split at hp
    · rename_i identity pid socket hid _ _
      split_ifs at hp
      cases hp
      exact ⟨Or.inr hidentity,fun hk => absurd hk (hidentity _ hid)⟩
    · cases hp

lemma LinkedTable.allPeers {t : PeerTable} (h : LinkedTable K t) {p : Str × PeerRecord}
    (hp : p ∈ allPeers m t) : LinkedRecord K p.2 ∧ (K p.1 → p.2.kind = some .codex) := by
  obtain ⟨r,hr,hnormal⟩ := mem_allPeers hp
  exact (h r hr).normalise hnormal

/-- Where a message for a session is routed to. -/
lemma LinkedTable.routed {config : Config} (h : LinkedTable K config.toPeerTable) {key : Str}
    (hk : K key) {peer : PeerRecord} (hpeer : routedPeer m config (some key) = .ok peer) :
    peer.kind = some .codex := by
  unfold routedPeer at hpeer
  rw [Option.bind_some] at hpeer
  split at hpeer
  · rename_i record hrecord
    cases hpeer
    obtain ⟨before,rest,htable,-⟩ := List.lookup_eq_some_iff.mp hrecord
    exact (h.allPeers (p := (key,peer)) (by rw [htable]; simp)).2 hk
  · cases hpeer

/-- The mirror of a record that is no Codex peer. -/
lemma LinkedRecord.mirror {r : PeerRecord} (h : LinkedRecord K r) (hkind : r.kind = some .claude) :
    LinkedRecord K (legacyMirror r).toRecord := by
  refine Or.inr (h.resolve_left ?_)
  rw [hkind]
  decide

/-- A table whose records are taken from another, with the same legacy peer. -/
lemma LinkedTable.of_peers {t : PeerTable} (h : LinkedTable K t) {peers : List (Str × PeerRecord)}
    (hpeers : ∀ p ∈ peers, LinkedRecord K p.2) : LinkedTable K { t with peers := some peers } := by
  intro r hr
  obtain ⟨ps,hps,key,hmem⟩ | hlegacy := hr
  · cases hps
    exact hpeers _ hmem
  · exact h r (Or.inr hlegacy)

lemma LinkedTable.enrollTable {t : PeerTable} (h : LinkedTable K t) {key : Str} {record : PeerRecord}
    (hrecord : LinkedRecord K record) : LinkedTable K (enrollTable m key record t) := by
  have hpeers : ∀ p ∈ Dict.set (PeerChat.allPeers m t) key record, LinkedRecord K p.2 := by
    intro p hp
    obtain rfl | hp := Dict.mem_set hp
    · exact hrecord
    · exact (h.allPeers hp).1
  intro r hr
  obtain ⟨ps,hps,k,hmem⟩ | ⟨legacy,hlegacy,rfl⟩ := hr
  · cases hps
    exact hpeers _ hmem
  · unfold PeerChat.enrollTable at hlegacy
    dsimp only at hlegacy
    split at hlegacy
    · rename_i p hp
      cases hlegacy
      exact (hpeers p (List.mem_of_find?_eq_some hp)).mirror (by simpa using List.find?_some hp)
    · exact h _ (Or.inr ⟨legacy,hlegacy,rfl⟩)

end

/-! Runs of all sessions. -/

variable {ι : Type} (U : Interp) (mesh : ι → Session) (m : ι → Machine)

/-- Is the key one of a session? -/
def Member (key : Str) : Prop := ∃ a, (mesh a).key = key

/-- A session after its part of a run. -/
def world (run : ι → Schedule) (a : ι) : World :=
  ((bridge U false).final (.idle (.new (m a))) (run a)).state

/-- Whoever has read some of the bytes of one of the writes has found the frame. -/
def Speaks (w : World) (f : Frame) : Prop :=
  ∃ e ∈ w.wire, ∃ chunks lines rest line expected, chunks.flatten <+: e.2 ∧
    feedAll [] chunks = some (lines,rest) ∧ line ∈ lines ∧ decodeFrame U line expected = some f

/-- What is assumed of the next event at a session. A frame that comes with the key of a session, comes
from what such a session has written; the ids of all messages differ; and a record with the key of a
session is enrolled as a Codex peer's. -/
def Admits (run : ι → Schedule) : Event Process Op → Prop
  | .start _ (.accept peer f) =>
    Member mesh peer → ∃ b, (mesh b).key = peer ∧ Speaks U (world U m run b) f
  | .start _ (.send args) => ∀ b args', Starts (run b) (.send args') → args'.id ≠ args.id
  | .start _ (.start args) =>
    ∀ record, args.requested = some (.ok record) → LinkedRecord (Member mesh) record
  | _ => True

variable [DecidableEq ι]

/-- The runs of the sessions, in any order of their events. -/
inductive MeshRun : (ι → Schedule) → Prop
  | idle : MeshRun fun _ => []
  | event {run : ι → Schedule} (a : ι) (e : Event Process Op) (h : MeshRun run)
      (hadmits : Admits U mesh m run e) : MeshRun (Function.update run a (run a ++ [e]))

omit [DecidableEq ι]

/-- One session has sent a message to another. -/
def Sends (run : ι → Schedule) (a b : ι) (args : SendArgs) : Prop :=
  Starts (run a) (.send args) ∧
    ((world U m run a).store.outgoing.find args.id.text).map (·.peer) = some (some (mesh b).key)

/-- The message with this id, from one session to another, ends a chain of `i` replies: the first is
sent without `--reply-to`, and each further one replies to the one before, to its sender. -/
inductive ReplyChain (run : ι → Schedule) : ℕ → ι → ι → Str → Prop
  | first {a b : ι} {args : SendArgs} (h : Sends U mesh m run a b args)
      (hnone : args.replyTo = none) : ReplyChain run 0 a b args.id.text
  | reply {i : ℕ} {a b : ι} {mid : Str} {args : SendArgs} (chain : ReplyChain run i a b mid)
      (h : Sends U mesh m run b a args) (hreply : args.replyTo = some mid) :
      ReplyChain run (i+1) b a args.id.text

end PeerChat.Mesh
