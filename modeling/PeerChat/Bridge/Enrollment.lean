import PeerChat.Bridge.Config
import PeerChat.Python.Dict

/-! Sequences of enrollments. The table is a fixed point of the normalisation under its own keys,
so every call only adds or replaces the one record it is given. -/
namespace PeerChat
open Python

/-- Path resolution is stable: a resolved path is a non-blank absolute path that resolves to
itself. -/
structure StablePaths (m : Machine) : Prop where
  resolve_resolve : ∀ p, m.resolve (m.resolve p) = m.resolve p
  isAbsolute_resolve : ∀ p, m.isAbsolute (m.resolve p) = true
  strip_resolve : ∀ p, strip (m.resolve p) ≠ []

/-- `enroll(store, record)` on the saved table; an incomplete record raises and writes nothing. -/
def enrollRecord (m : Machine) (t : PeerTable) (record : PeerRecord) : PeerTable :=
  match normalise m record with
  | some (key,r) => enrollTable m key r t
  | none => t

def enrollAll (m : Machine) (t : PeerTable) (records : List PeerRecord) : PeerTable :=
  records.foldl (enrollRecord m) t

/-- No table yet, and no legacy peer or one with a complete record. -/
def Unenrolled (m : Machine) (t : PeerTable) : Prop :=
  t.peers = none ∧ ∀ legacy, t.peer = some legacy → (normalise m legacy.toRecord).isSome = true

/-- The record that the last enrollment for a key has saved. -/
def lastEnrolled (m : Machine) (records : List PeerRecord) (key : Str) : Option PeerRecord :=
  (records.filterMap (normalise m)).reverse.lookup key

variable {m : Machine}

/-! Normalisation. -/

lemma absoluteRoot_resolved (hm : StablePaths m) {value : Option Str} {root : Str}
    (h : absoluteRoot m value = some root) : absoluteRoot m (some root) = some root := by
  simp only [absoluteRoot] at h
  split at h
  · split_ifs at h
    cases h
    simp [absoluteRoot,hm.strip_resolve,hm.isAbsolute_resolve,hm.resolve_resolve]
  · cases h

/-- What normalisation yields stands under its own key. -/
lemma normalise_key {r : PeerRecord} {p : Str × PeerRecord} (h : normalise m r = some p) :
    p.2.key = some p.1 := by
  simp only [normalise] at h
  split at h
  · cases h
  · split at h
    · split_ifs at h
      obtain ⟨key,-,rfl⟩ := Option.map_eq_some_iff.mp h
      rfl
    · cases h
  · split at h
    · split_ifs at h
      cases h
      rfl
    · cases h

/-- The key of a Claude peer is its identity. -/
lemma normalise_identity {r : PeerRecord} {p : Str × PeerRecord} (h : normalise m r = some p)
    (hk : p.2.kind = some .claude) : p.2.identity = some p.1 := by
  simp only [normalise] at h
  split at h
  · cases h
  · rename_i hkind
    split at h
    · split_ifs at h
      obtain ⟨key,-,rfl⟩ := Option.map_eq_some_iff.mp h
      cases hkind.symm.trans hk
    · cases h
  · split at h
    · split_ifs at h
      cases h
      assumption
    · cases h

/-- The normal form of a Codex record. -/
lemma normalise_codex {r : PeerRecord} {thread home root key : Str} (hkind : r.kind = some .codex)
    (hthread : r.thread = some thread) (hhome : r.codexHome = some home)
    (hroot : absoluteRoot m r.stateRoot = some root)
    (hv : validUuid thread = true ∧ strip home ≠ [] ∧ m.isAbsolute home = true)
    (hkey : codexKey m (canonicalHome m home) thread = some key) :
    normalise m r = some (key,{ r with
      codexHome := some (canonicalHome m home)
      stateRoot := some root
      key := some key
      name := some (r.name.getD (key.take 8)) }) := by
  simp [normalise,hkind,hthread,hhome,hroot,hv,hkey]

/-- Normalisation is idempotent. -/
lemma normalise_normalised (hm : StablePaths m) {r : PeerRecord} {p : Str × PeerRecord}
    (h : normalise m r = some p) : normalise m p.2 = some p := by
  simp only [normalise] at h
  split at h
  · cases h
  · rename_i hkind
    split at h
    · rename_i thread home root hthread hhome hroot
      split_ifs at h with hv
      obtain ⟨key,hkey,rfl⟩ := Option.map_eq_some_iff.mp h
      have hhome' : canonicalHome m (canonicalHome m home) = canonicalHome m home :=
        hm.resolve_resolve home
      have hv' : validUuid thread = true ∧ strip (canonicalHome m home) ≠ [] ∧
          m.isAbsolute (canonicalHome m home) = true :=
        ⟨hv.1,hm.strip_resolve home,hm.isAbsolute_resolve home⟩
      let out : PeerRecord := { r with
        codexHome := some (canonicalHome m home)
        stateRoot := some root
        key := some key
        name := some (r.name.getD (key.take 8)) }
      have hk : out.kind = some .codex := hkind
      have hn := normalise_codex hk hthread rfl (absoluteRoot_resolved hm hroot) hv'
        (by rw [hhome']; exact hkey)
      rw [hhome'] at hn
      exact hn
    · cases h
  · split at h
    · rename_i identity pid socket hi hp hs
      split_ifs at h with hv
      cases h
      simp [normalise,hi,hp,hs,hv]
    · cases h

/-! The table. -/

/-- Every record is in normal form under its own key, and no key comes twice. -/
structure Canonical (m : Machine) (table : List (Str × PeerRecord)) : Prop where
  normal : ∀ p ∈ table, normalise m p.2 = some p
  nodup : (Dict.keys table).Nodup

namespace Canonical
variable {table : List (Str × PeerRecord)}

lemma nil : Canonical m [] := ⟨by simp,List.nodup_nil⟩

lemma set (hm : StablePaths m) (h : Canonical m table) {r : PeerRecord} {p : Str × PeerRecord}
    (hp : normalise m r = some p) : Canonical m (Dict.set table p.1 p.2) where
  normal q hq := by
    rcases Dict.mem_set hq with rfl | hq
    · exact normalise_normalised hm hp
    · exact h.normal q hq
  nodup := Dict.nodup_set h.nodup _ _

/-- A canonical table reads as it is stored. -/
lemma allPeers_eq (h : Canonical m table) (peer : Option LegacyPeer) :
    allPeers m ⟨some table,peer⟩ = table := by
  have hstep : ∀ out, ∀ p ∈ table, (match normalise m p.2 with
      | some (key,record) => Dict.set out key record
      | none => out) = Dict.set out p.1 p.2 := by
    intro out p hp
    rw [h.normal p hp]
  calc allPeers m ⟨some table,peer⟩
      = table.foldl (fun out p => Dict.set out p.1 p.2) [] := List.foldl_ext _ _ _ fun out p hp => hstep out p hp
    _ = table := Dict.foldl_set_append [] table h.nodup

end Canonical

/-- What is read from any saved table is canonical. -/
lemma allPeers_canonical (hm : StablePaths m) (t : PeerTable) : Canonical m (allPeers m t) := by
  simp only [allPeers]
  split
  · rename_i peers _
    have hfold : ∀ (ps out : List (Str × PeerRecord)), Canonical m out →
        Canonical m (ps.foldl (fun out p => match normalise m p.2 with
          | some (key,record) => Dict.set out key record
          | none => out) out) := by
      intro ps
      induction ps with
      | nil => exact fun _ h => h
      | cons p ps ih =>
        intro out h
        refine ih _ ?_
        dsimp only
        split
        · exact h.set hm ‹_›
        · exact h
    exact hfold peers [] .nil
  · split
    · split
      · rename_i key record hp
        refine ⟨?_,List.nodup_singleton _⟩
        simpa using normalise_normalised hm hp
      · exact .nil
    · exact .nil

/-! One enrollment. -/

lemma enrollRecord_none {t : PeerTable} {r : PeerRecord} (h : normalise m r = none) :
    enrollRecord m t r = t := by simp only [enrollRecord,h]

lemma enrollRecord_peers {t : PeerTable} {r : PeerRecord} {p : Str × PeerRecord}
    (h : normalise m r = some p) :
    (enrollRecord m t r).peers = some (Dict.set (allPeers m t) p.1 p.2) := by
  simp only [enrollRecord,h,enrollTable]

/-- An enrollment sets one key of the table. -/
lemma allPeers_enrollRecord (hm : StablePaths m) (t : PeerTable) {r : PeerRecord}
    {p : Str × PeerRecord} (h : normalise m r = some p) :
    allPeers m (enrollRecord m t r) = Dict.set (allPeers m t) p.1 p.2 := by
  have hc := ((allPeers_canonical hm t).set hm h).allPeers_eq (enrollRecord m t r).peer
  rw [← enrollRecord_peers h] at hc
  exact hc

def PeerRecord.isClaude (r : PeerRecord) : Bool := r.kind = some .claude

/-- The first Claude peer is the one that `config.peer` mirrors. -/
def Mirrored (m : Machine) (t : PeerTable) : Prop :=
  ∀ legacy, t.peer = some legacy → ∃ p,
    (allPeers m t).find? (fun q => q.2.isClaude) = some p ∧ legacy.identity = some p.1

/-- No key stands for peers of two kinds. -/
def KindsAgree (records : List (Str × PeerRecord)) : Prop :=
  ∀ p ∈ records, ∀ q ∈ records, p.1 = q.1 → p.2.kind = q.2.kind

instance (records : List (Str × PeerRecord)) : Decidable (KindsAgree records) :=
  inferInstanceAs (Decidable (∀ p ∈ records, ∀ q ∈ records, _))

/-- An enrollment of a key that keeps its kind leaves the mirrored identity. -/
lemma mirrored_step (hm : StablePaths m) {t : PeerTable} {r : PeerRecord} {p : Str × PeerRecord}
    (h : normalise m r = some p) (hmirror : Mirrored m t)
    (hkind : ∀ q ∈ allPeers m t, q.1 = p.1 → q.2.kind = p.2.kind) :
    Mirrored m (enrollRecord m t r) ∧ ∀ legacy, t.peer = some legacy →
      ∃ legacy', (enrollRecord m t r).peer = some legacy' ∧ legacy'.identity = legacy.identity := by
  have hall := allPeers_enrollRecord hm t h
  have hcanon := allPeers_canonical hm (enrollRecord m t r)
  have hpeer : (enrollRecord m t r).peer =
      (((allPeers m (enrollRecord m t r)).find? (fun q => q.2.isClaude)).map
        fun q => legacyMirror q.2).or t.peer := by
    rw [hall]
    simp only [enrollRecord,h,enrollTable]
    have hclaude : (fun q : Str × PeerRecord => q.2.isClaude) =
        fun q => decide (q.2.kind = some .claude) := by
      funext q
      rfl
    rw [hclaude]
    split <;> rename_i hf <;> rw [hf] <;> rfl
  have hkept : ∀ legacy, t.peer = some legacy → ∃ q,
      (allPeers m (enrollRecord m t r)).find? (fun q => q.2.isClaude) = some q ∧
        legacy.identity = some q.1 := by
    intro legacy hl
    obtain ⟨q,hq,hid⟩ := hmirror legacy hl
    have hsame : ∀ x ∈ allPeers m t, x.1 = p.1 →
        x.2.isClaude = p.2.isClaude := by
      intro x hx he
      rw [PeerRecord.isClaude,hkind x hx he]
      rfl
    obtain ⟨q',hq',hkey⟩ := Dict.find?_set hsame hq
    exact ⟨q',by rw [hall]; exact hq',by rw [hid,hkey]⟩
  have hmirrored : ∀ q, (allPeers m (enrollRecord m t r)).find? (fun q => q.2.isClaude) =
      some q → (legacyMirror q.2).identity = some q.1 := by
    intro q hq
    have hc : q.2.kind = some .claude := by
      simpa [PeerRecord.isClaude] using List.find?_some hq
    exact normalise_identity (hcanon.normal q (List.mem_of_find?_eq_some hq)) hc
  constructor
  · intro legacy hl
    rw [hpeer] at hl
    cases hq : (allPeers m (enrollRecord m t r)).find? (fun q => q.2.isClaude) with
    | some q =>
      rw [hq] at hl
      cases hl
      exact ⟨q,rfl,hmirrored q hq⟩
    | none =>
      rw [hq] at hl
      exact hq ▸ hkept legacy hl
  · intro legacy hl
    obtain ⟨q,hq,hid⟩ := hkept legacy hl
    refine ⟨legacyMirror q.2,?_,?_⟩
    · rw [hpeer,hq]
      rfl
    · rw [hmirrored q hq,hid]

/-! Sequences. -/

lemma enrollAll_append (t : PeerTable) (rs ss : List PeerRecord) :
    enrollAll m t (rs ++ ss) = enrollAll m (enrollAll m t rs) ss := List.foldl_append

lemma lastEnrolled_cons_none {r : PeerRecord} (h : normalise m r = none) (rs : List PeerRecord)
    (key : Str) : lastEnrolled m (r::rs) key = lastEnrolled m rs key := by
  rw [lastEnrolled,List.filterMap_cons_none h,lastEnrolled]

lemma lastEnrolled_cons_some {r : PeerRecord} {p : Str × PeerRecord} (h : normalise m r = some p)
    (rs : List PeerRecord) (key : Str) : lastEnrolled m (r::rs) key =
      (lastEnrolled m rs key).or (if key = p.1 then some p.2 else none) := by
  rw [lastEnrolled,List.filterMap_cons_some h,List.reverse_cons,List.lookup_append,lastEnrolled,
    List.lookup_cons]
  by_cases hk : key = p.1
  · simp [hk]
  · have hb : (key == p.1) = false := by simpa using hk
    simp [hk,hb]

/-- The table holds the last record of each key, or the one it began with. -/
lemma lookup_enrollAll (hm : StablePaths m) (rs : List PeerRecord) (t : PeerTable) (key : Str) :
    (allPeers m (enrollAll m t rs)).lookup key =
      (lastEnrolled m rs key).or ((allPeers m t).lookup key) := by
  induction rs generalizing t with
  | nil => rfl
  | cons r rs ih =>
    change (allPeers m (enrollAll m (enrollRecord m t r) rs)).lookup key = _
    rw [ih]
    cases h : normalise m r with
    | none => rw [enrollRecord_none h,lastEnrolled_cons_none h]
    | some p =>
      rw [allPeers_enrollRecord hm t h,lastEnrolled_cons_some h,Dict.lookup_set,Option.or_assoc]
      split_ifs <;> rfl

/-- No key is ever lost. -/
lemma keys_enrollAll (hm : StablePaths m) (rs : List PeerRecord) {t : PeerTable} {key : Str}
    (h : key ∈ Dict.keys (allPeers m t)) : key ∈ Dict.keys (allPeers m (enrollAll m t rs)) := by
  induction rs generalizing t with
  | nil => exact h
  | cons r rs ih =>
    refine @ih (enrollRecord m t r) ?_
    cases hr : normalise m r with
    | none => rwa [enrollRecord_none hr]
    | some p =>
      rw [allPeers_enrollRecord hm t hr]
      exact Dict.mem_keys_set.mpr (Or.inr h)

/-- Every record comes from an enrollment or was there before. -/
lemma mem_enrollAll (hm : StablePaths m) (rs : List PeerRecord) {t : PeerTable}
    {p : Str × PeerRecord} (h : p ∈ allPeers m (enrollAll m t rs)) :
    p ∈ allPeers m t ++ rs.filterMap (normalise m) := by
  induction rs generalizing t with
  | nil => exact List.mem_append_left _ h
  | cons r rs ih =>
    have hi := @ih (enrollRecord m t r) h
    cases hr : normalise m r with
    | none =>
      rw [enrollRecord_none hr] at hi
      rwa [List.filterMap_cons_none hr]
    | some q =>
      rw [allPeers_enrollRecord hm t hr,List.mem_append] at hi
      rw [List.filterMap_cons_some hr,List.mem_append,List.mem_cons]
      rcases hi with hi | hi
      · rcases Dict.mem_set hi with rfl | hi
        · exact Or.inr (Or.inl rfl)
        · exact Or.inl hi
      · exact Or.inr (Or.inr hi)

/-- After a complete record the saved table is the one that is read. -/
lemma peers_enrollAll (hm : StablePaths m) (rs : List PeerRecord) (t : PeerTable)
    (h : t.peers = some (allPeers m t) ∨ ∃ r ∈ rs, (normalise m r).isSome = true) :
    (enrollAll m t rs).peers = some (allPeers m (enrollAll m t rs)) := by
  induction rs generalizing t with
  | nil =>
    rcases h with h | ⟨r,hr,-⟩
    · exact h
    · cases hr
  | cons r rs ih =>
    refine ih (enrollRecord m t r) ?_
    cases hr : normalise m r with
    | some p =>
      left
      rw [enrollRecord_peers hr,allPeers_enrollRecord hm t hr]
    | none =>
      rw [enrollRecord_none hr]
      rcases h with h | ⟨x,hx,hsome⟩
      · exact Or.inl h
      · rcases List.mem_cons.mp hx with rfl | hx
        · rw [hr] at hsome
          cases hsome
        · exact Or.inr ⟨x,hx,hsome⟩

/-- Enrollments that keep every key's kind keep the mirrored identity. -/
lemma mirrored_enrollAll (hm : StablePaths m) (rs : List PeerRecord) {t : PeerTable}
    (hmirror : Mirrored m t) (hkinds : KindsAgree (allPeers m t ++ rs.filterMap (normalise m))) :
    Mirrored m (enrollAll m t rs) ∧ ∀ legacy, t.peer = some legacy →
      ∃ legacy', (enrollAll m t rs).peer = some legacy' ∧ legacy'.identity = legacy.identity := by
  induction rs generalizing t with
  | nil => exact ⟨hmirror,fun legacy h => ⟨legacy,h,rfl⟩⟩
  | cons r rs ih =>
    change Mirrored m (enrollAll m (enrollRecord m t r) rs) ∧ _
    cases hr : normalise m r with
    | none =>
      rw [List.filterMap_cons_none hr] at hkinds
      have hi := ih hmirror hkinds
      rw [enrollRecord_none hr]
      refine ⟨hi.1,?_⟩
      have he : enrollAll m t (r::rs) = enrollAll m t rs := by
        change enrollAll m (enrollRecord m t r) rs = _
        rw [enrollRecord_none hr]
      rw [he]
      exact hi.2
    | some p =>
      rw [List.filterMap_cons_some hr] at hkinds
      have hp : p ∈ allPeers m t ++ p :: rs.filterMap (normalise m) := by simp
      obtain ⟨hstep,hkept⟩ := mirrored_step hm hr hmirror fun q hq he =>
        hkinds q (List.mem_append_left _ hq) p hp he
      have hsub : ∀ q ∈ allPeers m (enrollRecord m t r) ++ rs.filterMap (normalise m),
          q ∈ allPeers m t ++ p :: rs.filterMap (normalise m) := by
        intro q hq
        rw [allPeers_enrollRecord hm t hr,List.mem_append] at hq
        rcases hq with hq | hq
        · rcases Dict.mem_set hq with rfl | hq
          · exact hp
          · exact List.mem_append_left _ hq
        · exact List.mem_append_right _ (List.mem_cons_of_mem _ hq)
      obtain ⟨hfin,hrest⟩ := ih hstep fun q hq q' hq' he => hkinds q (hsub q hq) q' (hsub q' hq') he
      refine ⟨hfin,fun legacy hl => ?_⟩
      obtain ⟨l₁,h₁,hid₁⟩ := hkept legacy hl
      obtain ⟨l₂,h₂,hid₂⟩ := hrest l₁ h₁
      exact ⟨l₂,h₂,hid₂.trans hid₁⟩

/-- A configuration without a table mirrors the legacy peer that it reads. -/
lemma Unenrolled.mirrored {t : PeerTable} (h : Unenrolled m t) : Mirrored m t := by
  intro legacy hl
  obtain ⟨p,hp⟩ := Option.isSome_iff_exists.mp (h.2 legacy hl)
  have hread : allPeers m t = [p] := by
    simp only [allPeers,h.1,hl,hp]
  obtain ⟨hkind,hid⟩ : p.2.kind = some .claude ∧ p.2.identity = legacy.identity := by
    simp only [normalise,LegacyPeer.toRecord] at hp
    split at hp
    · split_ifs at hp
      cases hp
      exact ⟨rfl,rfl⟩
    · cases hp
  refine ⟨p,by simp [hread,PeerRecord.isClaude,hkind],?_⟩
  rw [← hid]
  exact normalise_identity hp hkind

/-- Over every sequence of enrollments, complete or not, into a configuration without a table: no
key is ever lost; the saved table is the one that is read, each record in normal form under its own
key; it is the last one enrolled for the key, or the legacy one; and where no key is enrolled with
two kinds, the identity in `config.peer`, once there, stays. -/
theorem enrollments_kept (hm : StablePaths m) {t : PeerTable} (ht : Unenrolled m t)
    (rs ss : List PeerRecord) :
    (∀ key ∈ Dict.keys (allPeers m (enrollAll m t rs)),
      key ∈ Dict.keys (allPeers m (enrollAll m t (rs ++ ss)))) ∧
    ((∃ r ∈ rs, (normalise m r).isSome = true) →
      (enrollAll m t rs).peers = some (allPeers m (enrollAll m t rs))) ∧
    (∀ p ∈ allPeers m (enrollAll m t rs), p.2.key = some p.1 ∧ normalise m p.2 = some p) ∧
    (∀ key, (allPeers m (enrollAll m t rs)).lookup key =
      (lastEnrolled m rs key).or ((allPeers m t).lookup key)) ∧
    (KindsAgree (allPeers m t ++ (rs ++ ss).filterMap (normalise m)) →
      ∀ legacy, (enrollAll m t rs).peer = some legacy →
        ∃ legacy', (enrollAll m t (rs ++ ss)).peer = some legacy' ∧
          legacy'.identity = legacy.identity) := by
  rw [enrollAll_append]
  refine ⟨fun key => keys_enrollAll hm ss,fun h => peers_enrollAll hm rs t (Or.inr h),?_,
    lookup_enrollAll hm rs t,?_⟩
  · intro p hp
    have hn := (allPeers_canonical hm _).normal p hp
    exact ⟨normalise_key hn,hn⟩
  · intro hkinds
    rw [List.filterMap_append,← List.append_assoc] at hkinds
    have hbefore := (mirrored_enrollAll hm rs ht.mirrored fun p hp q hq =>
      hkinds p (List.mem_append_left _ hp) q (List.mem_append_left _ hq)).1
    refine (mirrored_enrollAll hm ss hbefore fun p hp q hq => ?_).2
    have hsub : ∀ x ∈ allPeers m (enrollAll m t rs) ++ ss.filterMap (normalise m),
        x ∈ (allPeers m t ++ rs.filterMap (normalise m)) ++ ss.filterMap (normalise m) := by
      intro x hx
      rcases List.mem_append.mp hx with hx | hx
      · exact List.mem_append_left _ (mem_enrollAll hm rs hx)
      · exact List.mem_append_right _ hx
    exact hkinds p (hsub p hp) q (hsub q hq)

/-- A machine that resolves a relative path at its root. -/
def rooted : Machine := { Machine.bare with
  resolve := fun p => if startswith p (str "/") then p else str "/" ++ p }

lemma rooted_stable : StablePaths rooted := by
  have hslash : ∀ p, startswith (rooted.resolve p) (str "/") = true := by
    intro p
    change startswith (if startswith p (str "/") then p else str "/" ++ p) (str "/") = true
    split_ifs with h
    · exact h
    · exact List.isPrefixOf_iff_prefix.mpr (List.prefix_append ..)
  refine ⟨fun p => ?_,hslash,fun p => ?_⟩
  · change (if startswith (rooted.resolve p) (str "/") then rooted.resolve p else _) = _
    rw [if_pos (hslash p)]
  · rw [Ne,strip_eq_nil_iff]
    intro h
    obtain ⟨rest,hrest⟩ := List.isPrefixOf_iff_prefix.mp (hslash p)
    have := h (ofChar '/') (by rw [← hrest]; exact List.mem_cons_self ..)
    revert this
    decide

/-- A Codex session, and the key it is enrolled under. -/
def codexEntry : PeerRecord where
  kind := some .codex
  thread := some (str "77777777-7777-7777-7777-777777777777")
  codexHome := some (str "/home/u/.codex")
  stateRoot := some (str "/home/u/.state")

def claudeEntry (identity : Str) : PeerRecord where
  kind := some .claude
  pid := some 41
  identity := some identity
  socket := some (str "/run/peer.sock")

/-- A configuration from before the table. -/
def legacyTable : PeerTable where
  peer := some ⟨some 41,some (str "41:9"),some (str "/run/peer.sock"),none⟩

lemma legacyTable_unenrolled : Unenrolled rooted legacyTable := by
  refine ⟨rfl,?_⟩
  intro legacy h
  cases h
  decide +kernel

/-- The legacy peer stays mirrored beside another Claude peer and a Codex peer. -/
theorem enrollments_kept_sample : ∃ legacy,
    (enrollAll rooted legacyTable [claudeEntry (str "51:9"),codexEntry]).peer = some legacy ∧
      legacy.identity = some (str "41:9") := by
  obtain ⟨-,-,-,-,hpeer⟩ := enrollments_kept rooted_stable legacyTable_unenrolled
    [claudeEntry (str "51:9")] [codexEntry]
  have hid : (enrollAll rooted legacyTable [claudeEntry (str "51:9")]).peer.map (·.identity) =
      some (some (str "41:9")) := by decide +kernel
  obtain ⟨legacy,hl,hlid⟩ := Option.map_eq_some_iff.mp hid
  obtain ⟨legacy',hl',hid'⟩ := hpeer (by decide +kernel) legacy hl
  exact ⟨legacy',hl',hid'.trans hlid⟩

/-- The key that a Codex session is enrolled under. -/
def codexEntryKey : Str := ((normalise rooted codexEntry).map (·.1)).getD []

/-- A Claude peer whose identity is a Codex key takes the Codex peer's place before an older Claude
peer, and is mirrored instead of it. -/
theorem mirror_moves : ¬ ∀ (m : Machine) (t : PeerTable) (rs ss : List PeerRecord),
    StablePaths m → Unenrolled m t → (∀ r ∈ rs ++ ss, (normalise m r).isSome = true) →
    ∀ legacy, (enrollAll m t rs).peer = some legacy →
      ∃ legacy', (enrollAll m t (rs ++ ss)).peer = some legacy' ∧
        legacy'.identity = legacy.identity := by
  intro h
  have hbefore : (enrollAll rooted {} [codexEntry,claudeEntry (str "41:9")]).peer.map (·.identity) =
      some (some (str "41:9")) := by decide +kernel
  obtain ⟨legacy,hl,hid⟩ := Option.map_eq_some_iff.mp hbefore
  obtain ⟨legacy',hl',hid'⟩ := h rooted {} [codexEntry,claudeEntry (str "41:9")]
    [claudeEntry codexEntryKey] rooted_stable ⟨rfl,nofun⟩ (by decide +kernel) legacy hl
  have hafter : (enrollAll rooted {} ([codexEntry,claudeEntry (str "41:9")] ++
      [claudeEntry codexEntryKey])).peer.map (·.identity) ≠ some (some (str "41:9")) := by
    decide +kernel
  refine hafter ?_
  rw [hl',Option.map_some,hid',hid]

end PeerChat
