import PeerChat.Dispatch.Guarded
import PeerChat.Mesh.Programs
import PeerChat.Wire.Carried

/-! The hops along a chain of replies. Each message carries one more than the one it replies to, so
the guard of the recipients and the limit of the senders end every chain. -/
namespace PeerChat.Mesh
open Python Relational Wire Interleaving

variable {ι : Type} {U : Interp} {mesh : ι → Session} {m : ι → Machine} {run : ι → Schedule}

/-! What the runs of the sessions have in common. -/

lemma Speaks.grows {w w' : World} {f : Frame} (h : Speaks U w f) (hg : Grows w w') :
    Speaks U w' f := by
  obtain ⟨e,he,h⟩ := h
  exact ⟨e,hg.wire e he,h⟩

variable (U mesh m run) in
/-- What the events of a run were admitted for, as it stands at the end. -/
structure Orderly : Prop where
  ids : ∀ a b args args', Starts (run a) (.send args) → Starts (run b) (.send args') →
    args.id = args'.id → a = b ∧ args = args'
  linked : ∀ a args record, Starts (run a) (.start args) → args.requested = some (.ok record) →
    LinkedRecord (Member mesh) record
  spoken : ∀ a peer f, Starts (run a) (.accept peer f) → Member mesh peer →
    ∃ b, (mesh b).key = peer ∧ Speaks U (world U m run b) f

section
variable [DecidableEq ι]

lemma starts_update {a b : ι} {e : Event Process Op} {p : Process}
    (h : Starts (Function.update run a (run a ++ [e]) b) p) :
    Starts (run b) p ∨ b = a ∧ ∃ n, e = .start n p := by
  by_cases hb : b = a
  · subst hb
    rw [Function.update_self] at h
    obtain ⟨n,hn⟩ := h
    obtain hn | hn := List.mem_append.mp hn
    · exact Or.inl ⟨n,hn⟩
    · exact Or.inr ⟨rfl,n,(List.mem_singleton.mp hn).symm⟩
  · rw [Function.update_of_ne hb] at h
    exact Or.inl h

lemma world_update (a b : ι) (e : Event Process Op) :
    Grows (world U m run b) (world U m (Function.update run a (run a ++ [e])) b) := by
  unfold world
  by_cases hb : b = a
  · subst hb
    rw [Function.update_self,System.final_append]
    exact grows_final U false _ [e]
  · rw [Function.update_of_ne hb]
    exact .refl _

theorem MeshRun.orderly (h : MeshRun U mesh m run) : Orderly U mesh m run := by
  induction h with
  | idle =>
    constructor
    · intro a b args args' h
      obtain ⟨n,hn⟩ := h
      cases hn
    · intro a args record h
      obtain ⟨n,hn⟩ := h
      cases hn
    · intro a peer f h
      obtain ⟨n,hn⟩ := h
      cases hn
  | @event run a e h hadmits ih =>
    constructor
    · intro b c args args' hb hc hid
      obtain hold | ⟨rfl,n,rfl⟩ := starts_update hb
      · obtain hold' | ⟨rfl,n,rfl⟩ := starts_update hc
        · exact ih.ids b c args args' hold hold' hid
        · exact absurd hid (hadmits b args hold)
      · obtain hold | ⟨rfl,n',he⟩ := starts_update hc
        · exact absurd hid.symm (hadmits c args' hold)
        · cases he
          exact ⟨rfl,rfl⟩
    · intro b args record hb hrequested
      obtain hb | ⟨rfl,n,rfl⟩ := starts_update hb
      · exact ih.linked b args record hb hrequested
      · exact hadmits record hrequested
    · intro b peer f hb hpeer
      have hspoken : ∃ c, (mesh c).key = peer ∧ Speaks U (world U m run c) f := by
        obtain hb | ⟨rfl,n,rfl⟩ := starts_update hb
        · exact ih.spoken b peer f hb hpeer
        · exact hadmits hpeer
      obtain ⟨c,hkey,hc⟩ := hspoken
      exact ⟨c,hkey,hc.grows (world_update a c e)⟩

end

namespace Orderly
variable (ho : Orderly U mesh m run)

include ho in
/-- The text of an id names it. -/
lemma args_eq {a b : ι} {args args' : SendArgs} (h : Starts (run a) (.send args))
    (h' : Starts (run b) (.send args')) (hid : args.id.text = args'.id.text) :
    a = b ∧ args = args' := by
  refine ho.ids a b args args' h h' ?_
  have hparse := Uuid.parse_text args.id
  rw [hid,Uuid.parse_text] at hparse
  exact (Option.some.inj hparse).symm

include ho in
lemma run_kept (a : ι) : Kept U (Member mesh) (run a) (world U m run a) ∧
    ∀ t ∈ (bridge U false).trace (.idle (.new (m a))) (run a),
      Kept U (Member mesh) (run a) t.pre ∧
        (Guarantee U (Member mesh) (run a) t.pre t.label ∨ t.label.isOutside = true) := by
  refine Mesh.run_kept (fun args args' h h' hid => (ho.args_eq h h' hid).2) ?_ (ho.linked a) (m a)
  intro key hkey
  obtain ⟨b,rfl⟩ := hkey
  exact (mesh b).key_ne

end Orderly

/-! One message. -/

/-- A hop list of this length. -/
structure HopList (n : ℕ) (hops : List Str) : Prop where
  length : hops.length = n
  valid : ∀ h ∈ hops, isHop h = true

namespace Sends
variable {a b : ι} {args : SendArgs} (ho : Orderly U mesh m run) (h : Sends U mesh m run a b args)

include ho h in
/-- What has been written of a message, has been written for a Codex peer. -/
lemma written {data : Bytes} (hdata : (args.id.text,data) ∈ (world U m run a).wire) :
    ∃ m' config peer body hops, Nonempty (Sent U m' config peer body args.id.text hops data) ∧
      peer.kind = some .codex ∧
      Continues (run a) (world U m run a) args.id.text (some (mesh b).key) hops := by
  obtain ⟨m',config,peer,body,hops,target,to',hto,hout,hkind,hcont⟩ :=
    (ho.run_kept a).1.written _ hdata
  obtain rfl : some (mesh b).key = to' := Option.some.inj (h.2.symm.trans hto)
  exact ⟨m',config,peer,body,hops,outbound_sent hout,hkind _ rfl ⟨b,rfl⟩,hcont⟩

variable {n : ℕ} (hcont : ∀ hops,
  Continues (run a) (world U m run a) args.id.text (some (mesh b).key) hops → HopList n hops)

include ho h hcont in
/-- A message that is accepted with the id and from the key of this one, has one hop more than this
one goes on from. -/
lemma accepted_hops {body : Str} {mode : Mode} {hops : List Str}
    (hacc : Starts (run b) (.accept (mesh a).key (.message args.id.text body mode hops))) :
    HopList (n+1) hops := by
  obtain ⟨a',-,e,he,chunks,lines,rest,line,expected,hp,hfeed,hmem,hdec⟩ :=
    ho.spoken b _ _ hacc ⟨a,rfl⟩
  obtain ⟨id,data⟩ := e
  -- it has been written for this message
  have hid : a' = a ∧ id = args.id.text := by
    obtain ⟨m',config,peer,text,found,target,to',-,hout,-,args',hargs',hid',-⟩ :=
      (ho.run_kept a').1.written _ he
    dsimp only at hout hid'
    subst hid'
    obtain ⟨s⟩ := outbound_sent hout
    obtain ⟨text',mode',hops',hf⟩ := s.carried_id hp hfeed hmem hdec
    have htext : args'.id.text = args.id.text := (Frame.message.inj hf).1.symm
    exact ⟨(ho.args_eq hargs' h.1 htext).1,htext⟩
  obtain ⟨rfl,rfl⟩ := hid
  obtain ⟨m',config,peer,text,found,⟨s⟩,hkind,hc⟩ := h.written ho he
  have hfound := hcont found hc
  obtain ⟨text',mode',hf⟩ := s.carried_hops hp hfeed hmem hfound.valid hdec
  cases hf
  refine ⟨?_,s.chain_isHop hfound.valid⟩
  rw [extendHops,if_pos (Or.inl hkind),List.length_append,hfound.length,List.length_singleton]

end Sends

/-! The whole chain. -/

namespace ReplyChain
variable {i : ℕ} {a b : ι} {mid : Str}

lemma sends (h : ReplyChain U mesh m run i a b mid) :
    ∃ args, Sends U mesh m run a b args ∧ args.id.text = mid := by
  cases h with
  | first h _ => exact ⟨_,h,rfl⟩
  | reply _ h _ => exact ⟨_,h,rfl⟩

lemma mid_ne (h : ReplyChain U mesh m run i a b mid) : mid ≠ [] := by
  obtain ⟨args,-,rfl⟩ := h.sends
  intro hnil
  have hvalid := validId_text args.id
  rw [hnil] at hvalid
  exact absurd hvalid (by decide)

variable (ho : Orderly U mesh m run)

include ho in
/-- The `i`-th reply goes on from `i` hops. -/
lemma continues_hops (h : ReplyChain U mesh m run i a b mid) {hops : List Str}
    (hc : Continues (run a) (world U m run a) mid (some (mesh b).key) hops) : HopList i hops := by
  induction h generalizing hops with
  | first h hnone =>
    obtain ⟨args',hargs',hid,hfirst,-⟩ := hc
    obtain ⟨-,rfl⟩ := ho.args_eq hargs' h.1 hid
    rw [hfirst hnone]
    exact ⟨rfl,by simp⟩
  | @reply i a b mid args chain h hreply ih =>
    obtain ⟨args',hargs',hid,-,hc⟩ := hc
    obtain ⟨-,rfl⟩ := ho.args_eq hargs' h.1 hid
    obtain ⟨row,hrow,rfl⟩ := hc _ mid rfl (mesh a).key_ne hreply chain.mid_ne
    -- the message that is replied to
    obtain ⟨body,mode,hacc⟩ := (ho.run_kept b).1.stored _ row hrow
    obtain ⟨sent,hsends,rfl⟩ := chain.sends
    exact hsends.accepted_hops ho (fun _ => ih) hacc

include ho in
/-- So whoever stores it, stores one more. -/
lemma stored_hops (h : ReplyChain U mesh m run i a b mid) {w : World} {row : MessageRow}
    (hw : Kept U (Member mesh) (run b) w)
    (hrow : w.store.messages.find ((mesh a).key,mid) = some row) : row.hops.length = i+1 := by
  obtain ⟨args,hsends,rfl⟩ := h.sends
  obtain ⟨body,mode,hacc⟩ := hw.stored _ row hrow
  exact (hsends.accepted_hops ho (fun _ => h.continues_hops ho) hacc).length

include ho in
/-- What has been written has at most 32 hops, its own included. -/
lemma lt_of_written (h : ReplyChain U mesh m run i a b mid) {e : Str × Bytes}
    (he : e ∈ (world U m run a).wire) (hid : e.1 = mid) : i < 32 := by
  obtain ⟨args,hsends,rfl⟩ := h.sends
  obtain ⟨id,data⟩ := e
  obtain rfl : id = args.id.text := hid
  obtain ⟨m',config,peer,body,hops,⟨s⟩,hkind,hc⟩ := hsends.written ho he
  have hlength := (h.continues_hops ho hc).length
  have hle := s.hops_le
  rw [extendHops,if_pos (Or.inl hkind),List.length_append,List.length_singleton] at hle
  omega

end ReplyChain

/-- A chain of replies between sessions that are linked as Codex peers, in any run of them. Its `i`-th
reply is stored with `i+1` hops; the guard keeps every one from the eighth on from being offered,
forwarded or announced; and from the 33rd on none is written at all, or recorded as written. -/
theorem reply_chain_bounded [DecidableEq ι] (hrun : MeshRun U mesh m run) {i : ℕ} {a b : ι}
    {mid : Str} (h : ReplyChain U mesh m run i a b mid) :
    (∀ row, (world U m run b).store.messages.find ((mesh a).key,mid) = some row →
      row.hops.length = i+1) ∧
    (7 ≤ i → ∀ r ∈ (bridge U false).log (.new (m b)) (run b),
      ¬ HandsOver ((mesh a).key,mid) r.step ∧
        ∀ row, row.key = ((mesh a).key,mid) → ¬ ClaimsFor row r.step) ∧
    (32 ≤ i → (∀ e ∈ (world U m run a).wire, e.1 ≠ mid) ∧
      ∀ t ∈ (bridge U false).trace (.idle (.new (m a))) (run a), ∀ ending detail,
        t.label = .sending (.finish mid ending detail) → ending = .uncertain) := by
  have ho := hrun.orderly
  refine ⟨fun row hrow => h.stored_hops ho (ho.run_kept b).1 hrow,fun hi r hr => ?_,fun hi => ?_⟩
  · -- the guard has looked at the row that is stored
    have hmem : r.step ∈ (bridge U false).trace (.idle (.new (m b))) (run b) := by
      rw [← System.log_steps]
      exact List.mem_map_of_mem hr
    have hlong : ∀ row, r.step.pre.store.messages.find ((mesh a).key,mid) = some row →
        HOP_LIMIT ≤ row.hops.length := by
      intro row hrow
      rw [h.stored_hops ho ((ho.run_kept b).2 _ hmem).1 hrow]
      unfold HOP_LIMIT
      omega
    constructor
    · intro hh
      obtain ⟨row,m',config,hrow,-,helig⟩ := handed_eligible hr hh
      exact absurd helig.hops (not_lt.mpr (hlong row hrow))
    · intro row hkey hclaims
      obtain ⟨config,-,hclaimed⟩ := hclaims
      obtain ⟨hpending,helig⟩ := claimed_eligible hclaimed
      have hrow := (Store.mem_select.mp hpending).1
      rw [hkey] at hrow
      exact absurd helig.hops (not_lt.mpr (hlong row hrow))
  · constructor
    · intro e he hid
      have hlt := h.lt_of_written ho he hid
      omega
    · intro t ht ending detail hlabel
      obtain ⟨-,hg | hout⟩ := (ho.run_kept a).2 t ht
      · rw [hlabel] at hg
        cases ending with
        | uncertain => rfl
        | written =>
          obtain ⟨e,he,hid⟩ := hg
          have hlt := h.lt_of_written ho ((grows_from ht).wire e he) hid
          omega
      · rw [hlabel] at hout
        cases hout

/-! Two sessions, linked to each other. -/

/-- A process that starts, and its first accesses. -/
def begins (i : ℕ) (p : Process) (n : ℕ) : Schedule := .start i p :: List.replicate n (.step i)

section
variable [DecidableEq ι] {run' : ι → Schedule} (h : MeshRun U mesh m run) (a : ι) (i : ℕ)
  (hother : ∀ b, b ≠ a → run' b = run b)

include h hother in
lemma MeshRun.steps (n : ℕ) (ha : run' a = run a ++ List.replicate n (.step i)) :
    MeshRun U mesh m run' := by
  have hrun : run' = Function.update run a (run a ++ List.replicate n (.step i)) :=
    Function.eq_update_iff.mpr ⟨ha,hother⟩
  rw [hrun]
  clear hrun ha hother
  induction n with
  | zero =>
    rw [List.replicate_zero,List.append_nil,Function.update_eq_self]
    exact h
  | succ n ih =>
    have hstep := ih.event a (.step i) trivial
    rw [Function.update_self,Function.update_idem,List.append_assoc,
      ← List.replicate_succ'] at hstep
    exact hstep

include h hother in
lemma MeshRun.begins {p : Process} (hadmits : Admits U mesh m run (.start i p)) (n : ℕ)
    (ha : run' a = run a ++ Mesh.begins i p n) : MeshRun U mesh m run' := by
  refine (h.event a _ hadmits).steps a i (fun b hb => ?_) n ?_
  · rw [hother b hb,Function.update_of_ne hb]
  · rw [ha,Function.update_self,List.append_assoc]
    rfl

end

lemma starts_nil (p : Process) : Starts [] p ↔ False := by simp [Starts]

lemma starts_append (es fs : Schedule) (p : Process) :
    Starts (es ++ fs) p ↔ Starts es p ∨ Starts fs p := by
  simp [Starts,exists_or]

lemma starts_begins (i n : ℕ) (q p : Process) : Starts (begins i q n) p ↔ q = p := by
  simp [Starts,begins,List.mem_replicate,eq_comm]

lemma starts_steps (i n : ℕ) (p : Process) : Starts (List.replicate n (.step i)) p ↔ False := by
  simp [Starts,List.mem_replicate]

lemma digit_lt (n : ℕ) : n % 16 < 16 := Nat.mod_lt n (by decide)

def digit (n : ℕ) : Nibble := ⟨n % 16,digit_lt n⟩

lemma length_digits (d : Nibble) : (List.replicate 32 d).length = 32 := List.length_replicate

def sameDigits (d : Nibble) : Uuid := ⟨List.replicate 32 d,length_digits d⟩

def pairThread (second : Bool) : Uuid := sameDigits (digit (if second then 9 else 8))

def pairMesh (second : Bool) : Session :=
  ⟨(Utf8.encode (str "/h")).getD [],(pairThread second).text⟩

def pairMachine : Machine := { sampleMachine with
  commandHome := str "/h"
  counterpart := fun _ thread => .ok {
    thread := some thread
    codexHome := some (str "/h")
    ownerPid := some 7
    ownerIdentity := some (str "7:1")
    socket := some (str "/c.sock")
    runtimePid := some 41
    runtimeIdentity := some (str "41:9")
    runtimeSocket := none }
  lockOwner := fun _ _ => some (str "7:1") }

/-- A session enrolls the other. -/
def linking (second : Bool) : Process := .start {
  thread := (pairThread second).text
  ownerPid := some 7
  requested := some (.ok {
    kind := some .codex
    thread := some (pairThread !second).text
    codexHome := some (str "/h")
    stateRoot := some (str "/s") })
  socket := str "/c.sock" }

def firstSend : SendArgs where
  id := sameDigits (digit 1)
  body := str "hello"

def replySend : SendArgs where
  id := sameDigits (digit 2)
  body := str "hi"
  replyTo := some firstSend.id.text

/-- The first session links itself, listens, and sends a message. -/
def asking : Schedule :=
  begins 0 (linking false) 15 ++ begins 1 (.serve 41 [false]) 6 ++
    begins 2 (.send firstSend) 4 ++ List.replicate 9 (.step 1)

def firstFrame : Frame :=
  .message firstSend.id.text (str "hello") .prompting [str "aeabc2d6e105764ad19771ac"]

/-- The second takes it, and replies. -/
def answering : Schedule :=
  begins 0 (.accept (pairMesh false).key firstFrame) 1 ++ begins 1 (linking true) 15 ++
    begins 2 (.serve 41 [false]) 6 ++ begins 3 (.send replySend) 6 ++ List.replicate 10 (.step 2)

def replyFrame : Frame := .message replySend.id.text (str "hi") .prompting
  [str "aeabc2d6e105764ad19771ac",str "16b06e97aac544c9f05def30"]

def pairRun (first second : Schedule) : Bool → Schedule
  | false => first
  | true => second

/-- At last the first takes the reply. -/
def talk : Bool → Schedule :=
  pairRun (asking ++ begins 3 (.accept (pairMesh true).key replyFrame) 1) answering

/-- A frame that comes with a whole write. -/
def carries (w : World) (f : Frame) : Bool := w.wire.any fun e =>
  match feedAll [] [e.2] with
  | some (lines,_) => lines.any fun line => decodeFrame .ascii line (str "uds:/c.sock") == some f
  | none => false

lemma speaks_of_carries {w : World} {f : Frame} (h : carries w f = true) : Speaks .ascii w f := by
  obtain ⟨e,he,hlines⟩ := List.any_eq_true.mp h
  split at hlines
  · rename_i lines rest hfeed
    obtain ⟨line,hline,hdecode⟩ := List.any_eq_true.mp hlines
    refine ⟨e,he,[e.2],lines,rest,line,_,?_,hfeed,hline,beq_iff_eq.mp hdecode⟩
    rw [List.flatten_singleton]
  · cases hlines

lemma talk_run : MeshRun .ascii pairMesh (fun _ => pairMachine) talk := by
  have hlinked : ∀ first second s i, Admits .ascii pairMesh (fun _ => pairMachine)
      (pairRun first second) (.start i (linking s)) := by
    intro first second s i record hrecord
    cases hrecord
    exact Or.inl rfl
  have hfirst : ∀ {x y z : Schedule} (b : Bool), b ≠ false → pairRun x y b = pairRun z y b := by
    intro x y z b hb
    cases b
    · exact absurd rfl hb
    · rfl
  have hsecond : ∀ {x y z : Schedule} (b : Bool), b ≠ true → pairRun x y b = pairRun x z b := by
    intro x y z b hb
    cases b
    · rfl
    · exact absurd rfl hb
  have h₀ : MeshRun .ascii pairMesh (fun _ => pairMachine) (pairRun [] []) := by
    have hrun : pairRun [] [] = fun _ => [] := by
      funext s
      cases s <;> rfl
    rw [hrun]
    exact .idle
  have h₁ := h₀.begins false 0 hfirst (hlinked [] [] false 0) 15 rfl
  have h₂ := h₁.begins false 1 hfirst (p := .serve 41 [false]) trivial 6 rfl
  have h₃ : MeshRun .ascii pairMesh (fun _ => pairMachine) (pairRun (begins 0 (linking false) 15 ++
      begins 1 (.serve 41 [false]) 6 ++ begins 2 (.send firstSend) 4) []) := by
    refine h₂.begins false 2 hfirst ?_ 4 rfl
    intro b args' h
    cases b <;> simp [pairRun,starts_nil,starts_append,starts_begins,linking] at h
  have h₄ : MeshRun .ascii pairMesh (fun _ => pairMachine) (pairRun asking []) :=
    h₃.steps false 1 hfirst 9 rfl
  -- what has been written can be accepted
  have h₅ := h₄.begins true 0 hsecond (p := .accept (pairMesh false).key firstFrame)
    (fun _ => ⟨false,rfl,speaks_of_carries (by decide +kernel)⟩) 1 rfl
  have h₆ := h₅.begins true 1 hsecond (hlinked _ _ true 1) 15 rfl
  have h₇ := h₆.begins true 2 hsecond (p := .serve 41 [false]) trivial 6 rfl
  have h₈ := h₇.begins true 3 hsecond (p := .send replySend) ?_ 6 rfl
  · have h₉ : MeshRun .ascii pairMesh (fun _ => pairMachine) (pairRun asking answering) :=
      h₈.steps true 2 hsecond 10 rfl
    exact h₉.begins false 3 hfirst (p := .accept (pairMesh true).key replyFrame)
      (fun _ => ⟨true,rfl,speaks_of_carries (by decide +kernel)⟩) 1 rfl
  · intro b args' h
    cases b
    · simp only [pairRun,asking,starts_append,starts_begins,starts_steps,linking,reduceCtorEq,
        false_or,or_false,Process.send.injEq] at h
      subst h
      decide
    · simp [pairRun,starts_append,starts_begins,linking] at h

lemma talk_chain : ReplyChain .ascii pairMesh (fun _ => pairMachine) talk 1 true false
    replySend.id.text := by
  refine .reply (.first ⟨⟨2,?_⟩,?_⟩ rfl) ⟨⟨3,?_⟩,?_⟩ rfl
  · simp [talk,pairRun,asking,begins]
  · decide +kernel
  · simp [talk,pairRun,answering,begins]
  · decide +kernel

/-- A message and its reply: the reply is stored with two hops. -/
theorem reply_chain_bounded_pair : ∃ row,
    (world .ascii (fun _ => pairMachine) talk false).store.messages.find
      ((pairMesh true).key,replySend.id.text) = some row ∧ row.hops.length = 2 := by
  have hstored : ((world .ascii (fun _ => pairMachine) talk false).store.messages.find
      ((pairMesh true).key,replySend.id.text)).isSome = true := by decide +kernel
  obtain ⟨row,hrow⟩ := Option.isSome_iff_exists.mp hstored
  exact ⟨row,hrow,(reply_chain_bounded talk_run talk_chain).1 row hrow⟩

end PeerChat.Mesh
