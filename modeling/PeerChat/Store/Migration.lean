import PeerChat.Interleaving.Exceptions
import PeerChat.Interleaving.Prepared
import PeerChat.System.Bridge

/-! Opening the database. Every process opens it for itself and brings whatever schema it finds up to
date, with others doing the same at the same time; any statement may find the file locked. -/
namespace PeerChat
open Interleaving

/-- What the statements of the constructor make sure of: the write-ahead log, the tables, the trigger on
`messages`, and the column `peer` of `outgoing`. -/
inductive Part
  | wal
  | messages
  | outgoing
  | metaTable
  | messageTiming
  | transition
  | peer
  deriving DecidableEq

/-- A database file, without its content. A trigger or a column is there only with its table. -/
structure Schema where
  /-- `journal_mode` is `wal`. -/
  wal : Bool
  /-- The table `messages`, with or without the trigger. -/
  messages : Option Bool
  /-- The table `outgoing`, with or without the column. -/
  outgoing : Option Bool
  metaTable : Bool
  messageTiming : Bool
  /-- Others keep the file locked, for longer than a statement waits. -/
  locked : Bool

def Schema.has (k : Schema) : Part → Bool
  | .wal => k.wal
  | .messages => k.messages.isSome
  | .outgoing => k.outgoing.isSome
  | .metaTable => k.metaTable
  | .messageTiming => k.messageTiming
  | .transition => k.messages = some true
  | .peer => k.outgoing = some true

/-- The table without which the statement fails. -/
def Part.table : Part → Option Part
  | .transition => some .messages
  | .peer => some .outgoing
  | _ => none

def Schema.lacks (k : Schema) (part : Part) : Bool := part.table.any fun table => !k.has table

/-- Everything the queries of the program refer to is there. -/
def Schema.current (k : Schema) : Bool :=
  [.wal,.messages,.outgoing,.metaTable,.messageTiming,.transition,.peer].all k.has

/-- The texts of `sqlite3.OperationalError` that depend on what is in the file and on what others do with
it. The file itself can be read and written, and its file system supports the log. -/
inductive OperationalError
  | locked
  | noSuchTable
  | duplicateColumn
  deriving DecidableEq

inductive SchemaOp
  /-- `CREATE … IF NOT EXISTS`; for the log, `PRAGMA journal_mode=WAL`; for the column,
  `ALTER TABLE outgoing ADD COLUMN peer`. -/
  | create (part : Part)
  /-- `PRAGMA table_info(outgoing)`. -/
  | tableInfo
  /-- The exception that leaves the constructor. -/
  | raise (e : OperationalError)
  /-- Some process takes or releases a lock. -/
  | lock (held : Bool)
  deriving DecidableEq

/-- The exception of a statement. -/
def SchemaOp.error (k : Schema) : SchemaOp → Option OperationalError
  | .create part =>
    if k.locked then some .locked
    else if k.lacks part then some .noSuchTable
    else if part = .peer ∧ k.has .peer then some .duplicateColumn
    else none
  | .tableInfo => if k.locked then some .locked else none
  | _ => none

def Schema.create (k : Schema) : Part → Schema
  | .wal => { k with wal := true }
  | .messages => { k with messages := k.messages.or (some false) }
  | .outgoing => { k with outgoing := k.outgoing.or (some false) }
  | .metaTable => { k with metaTable := true }
  | .messageTiming => { k with messageTiming := true }
  | .transition => { k with messages := k.messages.map fun _ => true }
  | .peer => { k with outgoing := k.outgoing.map fun _ => true }

/-- A statement that fails changes nothing. -/
def SchemaOp.apply (m : SchemaOp) (k : Schema) : Schema :=
  match m with
  | .create part => if (m.error k).isNone then k.create part else k
  | .lock held => { k with locked := held }
  | _ => k

instance : Acts SchemaOp Schema := ⟨SchemaOp.apply⟩

/-- A part of the constructor. -/
abbrev Opening := Raising Schema SchemaOp OperationalError

/-- One statement, with what it has found, or its exception. -/
def execute (m : SchemaOp) : Opening Schema :=
  Raising.access m fun k => match m.error k with
    | none => .ok k
    | some e => .error e

/-- The statements of a script, up to the first that fails. -/
def executescript : List Part → Opening Unit
  | [] => return
  | part::parts => do
    let _ ← execute (.create part)
    executescript parts

/-- The column is added where it was missing. Where the statement fails, another process may have been
faster. -/
def addPeer : Opening Unit :=
  tryCatch (do let _ ← execute (.create .peer)) fun e => do
    let k ← execute .tableInfo
    if k.has .peer then return else throw e

/-- The constructor of `Store`. -/
def openStore : Opening Unit := do
  executescript [.wal,.messages,.outgoing,.metaTable,.messageTiming,.transition]
  let k ← execute .tableInfo
  if k.has .peer then return else addPeer

/-- What an exception of the constructor leads to. -/
def opened : Except OperationalError Unit → Prog Schema SchemaOp Bool
  | .ok () => return true
  | .error e => do
    let _ ← Prog.perform (.raise e)
    return false

/-- The opening of a process, which goes on only where the constructor has returned. -/
def opening : Prog Schema SchemaOp Bool := openStore.run >>= opened

/-- Frames are accepted by a listener, which has opened the database when it started. -/
def Process.opens : Process → Bool
  | .accept .. => false
  | _ => true

/-- What may happen to the file besides: others take and release locks. -/
def SchemaOp.isLock : SchemaOp → Bool
  | .lock _ => true
  | _ => false

/-- The bridge on a database file whose schema is anything. -/
def openedBridge (U : Python.Interp) (honest : Bool) :
    System Process (Schema × World) (SchemaOp ⊕ Op) :=
  (bridge U honest).prepared opening Process.opens Schema.current SchemaOp.isLock

/-! The schema only grows. -/

lemma Schema.has_create {k : Schema} {part made : Part} (h : k.has part = true) :
    (k.create made).has part = true := by
  cases made <;> cases part <;> simp_all [Schema.create,Schema.has]

lemma Schema.has_apply {k : Schema} {part : Part} (m : SchemaOp) (h : k.has part = true) :
    (apply m k).has part = true := by
  cases m with
  | create made =>
    change (if _ then k.create made else k).has part = true
    split_ifs
    · exact Schema.has_create h
    · exact h
  | lock held => cases part <;> exact h
  | _ => exact h

lemma Schema.lacks_eq_false {k : Schema} {part : Part} :
    k.lacks part = false ↔ ∀ table ∈ part.table, k.has table = true := by
  unfold Schema.lacks
  cases part.table <;> simp

/-- With its table, a statement fails for a lock only, or because the column is there. -/
lemma error_create {k : Schema} {part : Part} {e : OperationalError}
    (h : (SchemaOp.create part).error k = some e)
    (htable : ∀ table ∈ part.table, k.has table = true) :
    e = .locked ∨ part = .peer ∧ k.has .peer = true := by
  rw [SchemaOp.error,Schema.lacks_eq_false.mpr htable] at h
  simp only [Bool.false_eq_true,if_false] at h
  split_ifs at h with hlocked hpeer
  · exact Or.inl (Option.some.inj h).symm
  · exact Or.inr hpeer

lemma table_of_error {k : Schema} {part : Part} (h : (SchemaOp.create part).error k = none) :
    ∀ table ∈ part.table, k.has table = true := by
  by_contra hno
  have hlacks : k.lacks part = true := by
    rwa [← Schema.lacks_eq_false,Bool.not_eq_false] at hno
  rw [SchemaOp.error,hlacks] at h
  simp only [if_true] at h
  split_ifs at h

lemma no_peer_of_error {k : Schema} (h : (SchemaOp.create .peer).error k = none) :
    ¬ k.has .peer = true := by
  intro hpeer
  rw [SchemaOp.error,if_pos (⟨rfl,hpeer⟩ : Part.peer = .peer ∧ k.has .peer = true)] at h
  split_ifs at h

/-- A statement that does not fail makes its part. -/
lemma Schema.has_of_error {k : Schema} {part : Part} (h : (SchemaOp.create part).error k = none) :
    (apply (SchemaOp.create part) k).has part = true := by
  change (if ((SchemaOp.create part).error k).isNone then k.create part else k).has part = true
  rw [if_pos (by rw [h]; rfl)]
  have htable := table_of_error h
  cases part with
  | transition =>
    obtain ⟨b,hb⟩ := Option.isSome_iff_exists.mp (htable .messages rfl)
    simp [Schema.create,Schema.has,hb]
  | peer =>
    obtain ⟨b,hb⟩ := Option.isSome_iff_exists.mp (htable .outgoing rfl)
    simp [Schema.create,Schema.has,hb]
  | _ => simp [Schema.create,Schema.has]

lemma error_tableInfo {k : Schema} {e : OperationalError} (h : SchemaOp.tableInfo.error k = some e) :
    e = .locked := by
  unfold SchemaOp.error at h
  split_ifs at h
  exact (Option.some.inj h).symm

lemma locked_of_error {k : Schema} {m : SchemaOp} (h : m.error k = some .locked) :
    k.locked = true := by
  by_contra hlocked
  cases m with
  | create part =>
    rw [SchemaOp.error,if_neg hlocked] at h
    split_ifs at h
    · cases h
    · cases h
  | tableInfo =>
    rw [SchemaOp.error,if_neg hlocked] at h
    cases h
  | _ => cases h

lemma Schema.current_iff (k : Schema) : k.current = true ↔ ∀ part, k.has part = true := by
  unfold Schema.current
  rw [List.all_eq_true]
  constructor
  · intro h part
    exact h part (by cases part <;> simp)
  · intro h part _
    exact h part

/-! The constructor among others. -/

/-- Everything of a list is there. -/
def Schema.HasAll (k : Schema) (parts : List Part) : Prop := ∀ part ∈ parts, k.has part = true

/-- What holds once, and then whatever others do. -/
def Lasting (P : Schema → Prop) : Prop := Stable (fun _ => True) (fun _ (_ : SchemaOp) => True) P

lemma lasting_hasAll (parts : List Part) : Lasting fun k => k.HasAll parts :=
  fun _ m _ _ h part hpart => Schema.has_apply m (h part hpart)

lemma lasting_const (C : Prop) : Lasting fun _ => C := fun _ _ _ _ h => h

/-- Only the exception of a lock leaves a constructor. -/
def Raised (_ : Schema) (m : SchemaOp) : Prop := ∀ e, m = .raise e → e = .locked

/-- `q` is started where `P` holds, among the constructors of others. -/
def Opens {α : Type} (P : Schema → Prop) (q : Opening α) (Q : α → Schema → Prop)
    (E : OperationalError → Schema → Prop) : Prop :=
  Sat (fun _ => True) (fun _ _ => True) Raised P q.run (Ends Q E)

/-- A statement, which nobody undoes. -/
lemma opens_execute {P : Schema → Prop} {m : SchemaOp} {Q : Schema → Schema → Prop}
    {E : OperationalError → Schema → Prop} (hm : ∀ e, m ≠ .raise e)
    (hok : ∀ k, P k → m.error k = none → Lasting (Q k) ∧ Q k (apply m k))
    (herror : ∀ k e, P k → m.error k = some e → Lasting (E e) ∧ E e (apply m k)) :
    Opens P (execute m) Q E := by
  refine Sat.access (fun _ _ e he => absurd he (hm e)) ?_ ?_
  · intro k k' hk hf
    split at hf
    · rename_i hnone
      cases hf
      exact hok k hk hnone
    · cases hf
  · intro k e hk hf
    split at hf
    · cases hf
    · rename_i e' hsome
      cases hf
      exact herror k e hk hsome

lemma Schema.HasAll.apply {k : Schema} {parts : List Part} (h : k.HasAll parts) (m : SchemaOp) :
    (Interleaving.apply m k).HasAll parts := fun part hpart => Schema.has_apply m (h part hpart)

lemma Schema.hasAll_cons {k : Schema} {part : Part} {parts : List Part} :
    k.HasAll (part :: parts) ↔ k.has part = true ∧ k.HasAll parts := List.forall_mem_cons

/-- Such a statement, whose exception is that of a lock. -/
lemma opens_create {parts : List Part} {part : Part} (hpeer : part ≠ .peer)
    (htable : ∀ table ∈ part.table, table ∈ parts) :
    Opens (fun k => k.HasAll parts) (execute (.create part)) (fun _ k => k.HasAll (part :: parts))
      fun e _ => e = .locked := by
  refine opens_execute (fun _ => SchemaOp.noConfusion) ?_ ?_
  · intro k hk hnone
    exact ⟨lasting_hasAll _,Schema.hasAll_cons.mpr ⟨Schema.has_of_error hnone,hk.apply _⟩⟩
  · intro k e hk hsome
    refine ⟨lasting_const _,?_⟩
    refine (error_create hsome fun table hneeds => hk table (htable table hneeds)).resolve_right ?_
    exact fun h => hpeer h.1

/-- The columns, as they are found. -/
lemma opens_tableInfo (parts : List Part) :
    Opens (fun k => k.HasAll parts) (execute .tableInfo)
      (fun k k' => k.HasAll parts ∧ k'.HasAll parts ∧ (k.has .peer = true → k'.has .peer = true))
      fun e _ => e = .locked := by
  refine opens_execute (fun _ => SchemaOp.noConfusion) ?_ fun k e _ he =>
    ⟨lasting_const _,error_tableInfo he⟩
  intro k hk _
  refine ⟨?_,hk,hk,id⟩
  rintro k' m - - ⟨-,hk',hpeer⟩
  exact ⟨hk,hk'.apply m,fun h => Schema.has_apply m (hpeer h)⟩

/-- No statement of the script comes before that of its table, or adds the column. -/
def inOrder : List Part → List Part → Bool
  | _, [] => true
  | made, part::script =>
    part ≠ .peer && part.table.all (fun table => table ∈ made) && inOrder (part :: made) script

lemma opens_executescript {parts : List Part} (script : List Part)
    (hscript : inOrder parts script = true) :
    Opens (fun k => k.HasAll parts) (executescript script)
      (fun _ k => k.HasAll (script.reverse ++ parts)) fun e _ => e = .locked := by
  induction script generalizing parts with
  | nil => exact fun k hk => hk
  | cons part script ih =>
    simp only [inOrder,Bool.and_eq_true,decide_eq_true_eq,Option.all_eq_true] at hscript
    obtain ⟨⟨hpeer,htable⟩,hrest⟩ := hscript
    rw [List.reverse_cons,List.append_assoc]
    exact Sat.andThen (opens_create hpeer htable) fun _ => ih hrest

/-- The look after a statement that has failed. -/
lemma opens_again {parts made : List Part} {e : OperationalError}
    (he : e = .locked ∨ .peer ∈ parts) (hmade : made ⊆ .peer :: parts) :
    Opens (fun k => k.HasAll parts)
      (do
        let k ← execute .tableInfo
        if k.has .peer then return else throw e)
      (fun _ k => k.HasAll made) fun e _ => e = .locked := by
  refine Sat.andThen (opens_tableInfo parts) fun k => ?_
  split_ifs with hpeer
  · rintro k' ⟨-,hk',hkept⟩ part hpart
    exact Schema.hasAll_cons.mpr ⟨hkept hpeer,hk'⟩ part (hmade hpart)
  · rintro k' ⟨hk,-,-⟩
    exact he.resolve_right fun hmem => hpeer (hk _ hmem)

/-- The column is added, or there was one. -/
lemma opens_addPeer {parts : List Part} (houtgoing : .outgoing ∈ parts) :
    Opens (fun k => k.HasAll parts) addPeer (fun _ k => k.HasAll (.peer :: parts))
      fun e _ => e = .locked := by
  have hcreate : Opens (fun k => k.HasAll parts) (execute (.create .peer))
      (fun _ k => k.HasAll (.peer :: parts))
      fun e k => (e = .locked ∨ k.has .peer = true) ∧ k.HasAll parts := by
    refine opens_execute (fun _ => SchemaOp.noConfusion) ?_ ?_
    · intro k hk hnone
      exact ⟨lasting_hasAll _,Schema.hasAll_cons.mpr ⟨Schema.has_of_error hnone,hk.apply _⟩⟩
    · intro k e hk hsome
      refine ⟨?_,(error_create hsome ?_).imp_right fun h => Schema.has_apply _ h.2,hk.apply _⟩
      · rintro k' m - - ⟨h,hk'⟩
        exact ⟨h.imp_right (Schema.has_apply m),hk'.apply m⟩
      · rintro table ⟨⟩
        exact hk _ houtgoing
  refine Sat.handled (Sat.andThen hcreate fun _ => fun _ hk => hk) fun e => ?_
  by_cases he : e = .locked
  · exact Sat.mono (fun _ hk => hk.2) (opens_again (Or.inl he) (List.Subset.refl _))
  · -- another process has added the column, and it is still there
    have hagain := @opens_again (.peer :: parts) (.peer :: parts) e (Or.inr (List.mem_cons_self ..))
      (List.subset_cons_self ..)
    refine Sat.mono (fun k hk => ?_) hagain
    exact Schema.hasAll_cons.mpr ⟨hk.1.resolve_left he,hk.2⟩

/-- What is there when the script is through. -/
def scripted : List Part := [.transition,.messageTiming,.metaTable,.outgoing,.messages,.wal]

lemma Schema.current_of_hasAll {k : Schema} (h : k.HasAll (.peer :: scripted)) :
    k.current = true := by
  rw [Schema.current_iff]
  intro part
  exact h part (by cases part <;> simp [scripted])

lemma opens_openStore : Opens (fun k => k.HasAll []) openStore (fun _ k => k.HasAll (.peer :: scripted))
    fun e _ => e = .locked := by
  have hscript : Opens (fun k => k.HasAll [])
      (executescript [.wal,.messages,.outgoing,.metaTable,.messageTiming,.transition])
      (fun _ k => k.HasAll scripted) fun e _ => e = .locked := opens_executescript _ (by decide)
  refine Sat.andThen hscript fun _ => Sat.andThen (opens_tableInfo scripted) fun k => ?_
  split_ifs with hpeer
  · rintro k' ⟨-,hk',hkept⟩
    exact Schema.hasAll_cons.mpr ⟨hkept hpeer,hk'⟩
  · exact Sat.mono (fun _ hk => hk.2.1) (opens_addPeer (by simp [scripted]))

lemma opening_sat : Sat (fun _ => True) (fun _ _ => True) Raised (fun _ => True) opening
    fun done k => done = true → k.current = true := by
  have hempty : ∀ k : Schema, True → k.HasAll [] := fun _ _ part hpart => by cases hpart
  refine (Sat.mono hempty opens_openStore).bind fun r => ?_
  cases r with
  | ok a => exact fun k hk _ => Schema.current_of_hasAll hk
  | error e =>
    intro k _ he
    refine ⟨?_,fun _ => True,fun _ _ _ _ _ => trivial,trivial,fun k _ hdone => by cases hdone⟩
    rintro e' ⟨⟩
    exact he

/-! The constructor by itself. -/

/-- A process has found the file locked. -/
def FoundLocked (past : List (Step Schema SchemaOp)) : Prop := ∃ t ∈ past, t.pre.locked = true

/-- It says so only then. -/
def SaysLocked (past : List (Step Schema SchemaOp)) (t : Step Schema SchemaOp) : Prop :=
  t.label = .raise .locked → FoundLocked past

lemma execute_traced {m : SchemaOp} (hm : ∀ e, m ≠ .raise e) (u : List (Step Schema SchemaOp)) :
    (execute m).run.Traced SaysLocked (Prog.Raises fun u e => e = .locked → FoundLocked u) u := by
  intro k
  refine ⟨fun h => absurd h (hm _),?_⟩
  cases herror : m.error k with
  | none => simp only [Prog.Traced,herror,Prog.Raises]
  | some e =>
    simp only [Prog.Traced,herror,Prog.Raises]
    rintro rfl
    exact ⟨⟨m,k⟩,by simp,locked_of_error herror⟩

lemma executescript_traced (script : List Part) (u : List (Step Schema SchemaOp)) :
    (executescript script).run.Traced SaysLocked
      (Prog.Raises fun u e => e = .locked → FoundLocked u) u := by
  induction script generalizing u with
  | nil => trivial
  | cons part script ih =>
    exact (execute_traced (fun _ => SchemaOp.noConfusion) u).andThen fun u' _ _ => ih u'

lemma addPeer_traced (u : List (Step Schema SchemaOp)) : addPeer.run.Traced SaysLocked
    (Prog.Raises fun u e => e = .locked → FoundLocked u) u := by
  refine Prog.Traced.handled ((execute_traced (fun _ => SchemaOp.noConfusion) u).andThen
    fun _ _ _ => trivial) fun u₁ e he => ?_
  refine (execute_traced (fun _ => SchemaOp.noConfusion) u₁).andThen fun u₂ k hu => ?_
  split_ifs
  · trivial
  · intro hlocked
    obtain ⟨t,ht,hfound⟩ := he hlocked
    exact ⟨t,hu.subset ht,hfound⟩

lemma opening_traced : opening.Traced SaysLocked (fun _ _ => True) [] := by
  have hopen : openStore.run.Traced SaysLocked
      (Prog.Raises fun u e => e = .locked → FoundLocked u) [] := by
    refine (executescript_traced _ _).andThen fun u _ _ => ?_
    refine (execute_traced (fun _ => SchemaOp.noConfusion) u).andThen fun u' k _ => ?_
    split_ifs
    · trivial
    · exact addPeer_traced u'
  refine hopen.bind fun u r hr => ?_
  cases r with
  | ok a => trivial
  | error e =>
    intro k
    refine ⟨?_,trivial⟩
    rintro ⟨⟩
    exact hr rfl

/-! Whole runs. -/

/-- The step adds the column. -/
def addsPeer (t : Step (Schema × World) (SchemaOp ⊕ Op)) : Bool :=
  t.label.getLeft? = some (.create .peer) && ((SchemaOp.create .peer).error t.pre.1).isNone

/-- Once it is there, nobody adds it. -/
lemma addsPeer_once (s : Schema × World) (ls : List (SchemaOp ⊕ Op)) :
    ((stepsOf s ls).filter addsPeer).length ≤ if s.1.has .peer then 0 else 1 := by
  induction ls generalizing s with
  | nil => simp [stepsOf]
  | cons l ls ih =>
    have hrest := ih (apply l s)
    have hkeep : s.1.has .peer = true → (apply l s).1.has .peer = true := by
      intro h
      cases l with
      | inl m => exact Schema.has_apply m h
      | inr op => exact h
    rw [stepsOf,List.filter_cons]
    split_ifs with hadds hpeer hpeer
    · -- the column was missing
      obtain ⟨-,hnone⟩ := Bool.and_eq_true_iff.mp hadds
      exact absurd hpeer (no_peer_of_error (Option.isNone_iff_eq_none.mp hnone))
    · have hnow : (apply l s).1.has .peer = true := by
        obtain ⟨hl,hnone⟩ := Bool.and_eq_true_iff.mp hadds
        cases l with
        | inl m =>
          simp only [Sum.getLeft?_inl,Option.some.injEq,decide_eq_true_eq] at hl
          subst hl
          exact Schema.has_of_error (Option.isNone_iff_eq_none.mp hnone)
        | inr op => cases of_decide_eq_true hl
      rw [if_pos hnow] at hrest
      simp only [List.length_cons]
      omega
    · rwa [if_pos (hkeep hpeer)] at hrest
    · split_ifs at hrest <;> omega

/-- Whatever schema a database file has and whichever processes open it at once, in any order, with any
of them killed midway and the file locked at any times: the only exception of their statements that
leaves a constructor is that of a lock, and it has found one; the programs find every table and column
they use, and the column is added at most once; and nothing of the content is lost or changed. The
accesses of the programs are those of a run of the bridge on an up-to-date database, and leave the same
content. -/
theorem openings_unseen (U : Python.Interp) (honest : Bool) (k : Schema) (w : World)
    (es : List (Event Process (SchemaOp ⊕ Op))) :
    let T := (openedBridge U honest).trace (.idle (k,w)) es
    (∀ r ∈ (openedBridge U honest).log (k,w) es, ∀ e, r.step.label = .inl (.raise e) →
      e = .locked ∧ ∃ t ∈ r.before, t.pre.1.locked = true) ∧
      (∀ t ∈ T, ∀ op, t.label = .inr op → op.isOutside = false → t.pre.1.current = true) ∧
      (T.filter addsPeer).length ≤ 1 ∧
      ∃ fs : Schedule, T.filterMap Step.second? = (bridge U honest).trace (.idle w) fs ∧
        ((openedBridge U honest).final (.idle (k,w)) es).state.2 =
          ((bridge U honest).final (.idle w) fs).state := by
  intro T
  have hcurrent : Lasting fun k => k.current = true := by
    intro k m _ _ hk
    rw [Schema.current_iff] at hk ⊢
    exact fun part => Schema.has_apply m (hk part)
  have hstaged : ∀ t ∈ T, Staged Raised (fun k => k.current = true) t.pre t.label ∨
      (openedBridge U honest).outside t.label = true :=
    System.prepared_staged opening_sat hcurrent (fun _ _ _ _ => trivial)
      (fun _ _ _ _ => trivial) (fun _ _ _ _ => ⟨trivial,trivial⟩) trivial w es
  refine ⟨?_,?_,?_,?_⟩
  · intro r hr e he
    have hmem : r.step ∈ T := by
      have hsteps : T = ((openedBridge U honest).log (k,w) es).map (·.step) :=
        (System.log_steps ..).symm
      rw [hsteps]
      exact List.mem_map_of_mem hr
    have hlocked : e = .locked := by
      obtain h | h := hstaged r.step hmem
      · rw [he] at h
        exact h e rfl
      · rw [he] at h
        cases h
    refine ⟨hlocked,?_⟩
    obtain h | h := System.prepared_explained opening_traced (k,w) es r hr _ he
    · obtain ⟨t,ht,hfound⟩ := h (congrArg _ hlocked)
      obtain ⟨t',ht',hfirst⟩ := List.mem_filterMap.mp ht
      refine ⟨t',ht',?_⟩
      rwa [Step.first?_pre hfirst] at hfound
    · cases h
  · intro t ht op hl hop
    obtain h | h := hstaged t ht
    · rw [hl] at h
      exact h
    · rw [hl] at h
      cases hop.symm.trans h
  · obtain ⟨ls,hls,-⟩ := (openedBridge U honest).exists_labels (.idle (k,w)) es
    have honce := addsPeer_once (k,w) ls
    have hT : T = stepsOf (k,w) ls := hls
    rw [← hT] at honce
    exact honce.trans (by split_ifs <;> omega)
  · have hidle : System.Matches (.idle (k,w) : Pool (Schema × World) (SchemaOp ⊕ Op)) (.idle w) :=
      System.Matches.idle k w
    obtain ⟨fs,hmatch,htrace⟩ := hidle.run es
    exact ⟨fs,htrace,hmatch.state⟩

end PeerChat
