import PeerChat.Hooks.Batch
import PeerChat.Interleaving.Exclusive
import PeerChat.Inbox.Isolation
import Mathlib.Algebra.BigOperators.Group.Finset.Basic

/-! Where the notices of the peers go, when a listener stores them while hooks take them. The
listener reads the map and writes it back in a later statement; a hook deletes it in one transaction
and returns it from another. -/
namespace PeerChat
open Python Wire Interleaving

/-- The listener stores a notice, or a hook runs. -/
inductive NoticeTask
  | store (peer state warning : Str) (remaining : Option Budget)
  | hook (payload : HookPayload)

def NoticeTask.code : NoticeTask → Code Unit
  | .store peer state warning remaining => storeNotice peer state warning remaining
  | .hook payload => deliver payload >>= fun _ => .ret ()

def NoticeTask.ofListener : NoticeTask → Bool
  | .store .. => true
  | .hook _ => false

/-- One listener, which stores one notice after the other, and any number of hooks. -/
def notifying : System NoticeTask World Op where
  code := NoticeTask.code
  exclusive := NoticeTask.ofListener
  allowed _ _ := true
  outside := Op.isOutside

/-- A notice with its peer. -/
abbrev Note := Str × Notice

def World.notes (w : World) : List Note := w.store.keys.peerNotices

/-! What a process has read, and what it has taken. -/

/-- The notices that a listener has read. -/
def readNotes : List (Step World Op) → List Note
  | ⟨.look .peerNotices,w⟩ :: _ => w.notes
  | _ => []

def Op.takes : Op → Bool
  | .key .takeNotices => true
  | _ => false

def Op.offers : Op → Bool
  | .inbox (.offer ..) => true
  | _ => false

/-- What an access writes as notices. -/
def Op.notesWritten : Op → Option (List Note)
  | .key (.putNotices notes) => some notes
  | _ => none

/-- The notices that a hook has taken. -/
def takenNotes (past : List (Step World Op)) : List Note :=
  (past.filter (·.label.takes)).flatMap (·.pre.notes)

/-- The notices that a hook has taken and not yet returned. -/
def notesInHand (past : List (Step World Op)) : List Note :=
  if past.any (·.label.offers) then [] else takenNotes past

def hasInHand (q : Note) (past : List (Step World Op)) : Bool := q ∈ notesInHand past

/-! What an access does to a notice. -/

section
variable (q : Note) (r : Record World Op)

/-- A listener writes the notice, which it has not read. -/
def storesNote : Bool :=
  r.step.label.notesWritten.any fun notes => q ∈ notes && q ∉ readNotes r.before

/-- A listener overwrites the notice with another one of the same peer. -/
def replacesNote : Bool :=
  r.step.label.notesWritten.any fun notes =>
    q ∈ r.step.pre.notes && q ∉ notes && notes.any (·.1 = q.1)

/-- A hook takes the notice. -/
def takesNote : Bool := r.step.label.takes && q ∈ r.step.pre.notes

/-- A hook that has taken the notice returns. -/
def returnsNote : Bool := r.step.label.offers && hasInHand q r.before

end

/-- A listener writes a notice back that it has read and that has been taken since. -/
def writesBack (r : Record World Op) : Bool :=
  r.step.label.notesWritten.any fun notes =>
    notes.any fun q => q ∈ readNotes r.before && q ∉ r.step.pre.notes

/-! What one process does. -/

/-- Nothing has been taken or returned. -/
def Untouched (past : List (Step World Op)) : Prop :=
  ∀ st ∈ past, st.label.takes = false ∧ st.label.offers = false

/-- A listener reads and then sets one notice in what it has read; a hook takes once, and returns
once what it has taken. -/
def Noticing (past : List (Step World Op)) (t : Step World Op) : Prop :=
  match t.label with
  | .key (.putNotices notes) => ∃ w peer notice, past = [⟨.look .peerNotices,w⟩] ∧
      notes = Dict.set w.notes peer notice
  | .key .takeNotices => Untouched past
  | .inbox (.offer _ notice) => ∃ u w, past = u ++ [⟨.key .takeNotices,w⟩] ∧ Untouched u ∧
      notice = noticesText w.machine w.notes
  | _ => True

/-- The access has nothing to do with notices. -/
def Op.noteless (l : Op) : Bool := l.notesWritten.isNone && !l.takes && !l.offers

lemma noteless_iff {l : Op} : l.noteless = true ↔
    l.notesWritten = none ∧ l.takes = false ∧ l.offers = false := by
  simp [Op.noteless,and_assoc]

lemma Noticing.of_noteless {l : Op} (h : l.noteless = true) (past : List (Step World Op)) (w : World) :
    Noticing past ⟨l,w⟩ := by
  cases l with
  | key op => cases op <;> trivial
  | inbox op => cases op <;> trivial
  | _ => trivial

lemma Untouched.snoc {past : List (Step World Op)} (hp : Untouched past) {l : Op}
    (h : l.noteless = true) (w : World) : Untouched (past ++ [⟨l,w⟩]) := by
  intro st hst
  rcases List.mem_append.mp hst with hst | hst
  · exact hp st hst
  · obtain rfl := List.mem_singleton.mp hst
    exact (noteless_iff.mp h).2

/-- A part of a hook that has nothing to do with notices. -/
lemma noteless_traced {α : Type} {p : Code α} (hp : p.Emits fun l => l.noteless = true)
    {past : List (Step World Op)} (h : Untouched past) :
    p.Traced Noticing (fun u _ => Untouched u) past :=
  Prog.Traced.of_emits hp (fun u _ w hu hl => ⟨.of_noteless hl u w,hu.snoc hl w⟩) h

lemma handOver_noticing (config : Config) {past : List (Step World Op)} (h : Untouched past) :
    (handOver config).Traced Noticing (fun _ _ => True) past := by
  intro w
  refine ⟨h,fun w' => ⟨?_,trivial⟩⟩
  exact ⟨past,w,rfl,h,rfl⟩

lemma deliverRouted_noticing (config : Config) (payload : HookPayload) {past : List (Step World Op)}
    (h : Untouched past) : (deliverRouted config payload).Traced Noticing (fun _ _ => True) past := by
  have hrenew : (renewWindow payload).Emits fun l => l.noteless = true :=
    renewWindow_emits (fun _ => rfl) payload
  have hdecide : (decideWake payload).Emits fun l => l.noteless = true := decideWake_emits rfl
  refine Prog.Traced.bind (noteless_traced hrenew h) fun u _ hu => ?_
  refine Prog.Traced.bind (noteless_traced (emit_emits rfl) hu) fun v _ hv => ?_
  refine Prog.Traced.bind (noteless_traced hdecide hv) fun x _ hx => ?_
  split_ifs
  · trivial
  · exact handOver_noticing config hx

lemma deliver_noticing (payload : HookPayload) :
    (deliver payload).Traced Noticing (fun _ _ => True) [] := by
  unfold deliver
  split_ifs
  · trivial
  · have hstart : Untouched [] := by simp [Untouched]
    have hread : ∀ {β : Type} (what : Look) (f : World → β),
        (read what f).Emits fun l => l.noteless = true := fun what f => ⟨rfl,fun _ => trivial⟩
    refine Prog.Traced.bind (noteless_traced (hread _ _) hstart) fun u registration hu => ?_
    refine Prog.Traced.bind (noteless_traced (hread _ _) hu) fun u config hu => ?_
    split
    · trivial
    · rename_i config
      refine Prog.Traced.bind (noteless_traced (hread _ _) hu) fun u m hu => ?_
      split
      · refine Prog.Traced.bind (noteless_traced (emit_emits rfl) hu) fun u _ hu => ?_
        exact deliverRouted_noticing config payload hu
      · refine Prog.Traced.bind (noteless_traced (emit_emits rfl) hu) fun u _ hu => ?_
        split_ifs
        · exact deliverRouted_noticing config payload hu
        · trivial

lemma storeNotice_noticing (peer state warning : Str) (remaining : Option Budget) :
    (storeNotice peer state warning remaining).Traced Noticing (fun _ _ => True) [] := by
  intro w
  refine ⟨trivial,fun w' => ⟨?_,trivial⟩⟩
  exact ⟨w,peer,_,rfl,rfl⟩

lemma notifying_traced (task : NoticeTask) :
    (notifying.code task).Traced Noticing (fun _ _ => True) [] := by
  cases task with
  | store peer state warning remaining => exact storeNotice_noticing peer state warning remaining
  | hook payload => exact (deliver_noticing payload).bind fun _ _ h => h

/-! What one access does to the stored notices. -/

lemma notes_written {l : Op} {notes : List Note} (h : l.notesWritten = some notes) (w : World) :
    (apply l w).notes = notes := by
  cases l with
  | key op =>
    cases op with
    | putNotices notes' => exact Option.some.inj h
    | _ => cases h
  | _ => cases h

lemma notes_taken {l : Op} (h : l.takes = true) (w : World) : (apply l w).notes = [] := by
  cases l with
  | key op =>
    cases op with
    | takeNotices => rfl
    | _ => cases h
  | _ => cases h

lemma notes_kept {l : Op} (hw : l.notesWritten = none) (ht : l.takes = false) (w : World) :
    (apply l w).notes = w.notes := by
  have hframe : MetaKey.peerNotices ∉ l.writes := by
    cases l with
    | key op =>
      cases op with
      | putNotices notes => cases hw
      | takeNotices => cases ht
      | putBudget key value => cases key <;> simp [Op.writes,KeyOp.writes,BudgetKey.metaKey]
      | configureDelivery mode budget => cases budget <;> simp [Op.writes,KeyOp.writes,windowKeys]
      | _ => simp [Op.writes,KeyOp.writes,wakeKeys]
    | inbox op => cases op <;> simp [Op.writes]
    | _ => simp [Op.writes]
  exact apply_frame l w hframe

lemma note_kept {notes : List Note} {peer : Str} {notice : Notice} {q : Note} (h : q ∈ notes) :
    q ∈ Dict.set notes peer notice ∨
      q.1 = peer ∧ (Dict.set notes peer notice).any (·.1 = q.1) = true := by
  by_cases hq : q.1 = peer
  · right
    refine ⟨hq,?_⟩
    have hkey : q.1 ∈ Dict.keys (Dict.set notes peer notice) := Dict.mem_keys_set.mpr (Or.inl hq)
    obtain ⟨p,hp,he⟩ := List.mem_map.mp hkey
    exact List.any_eq_true.mpr ⟨p,hp,by simpa using he⟩
  · exact Or.inl (Dict.mem_set_of_mem h hq notice)

/-- The notices are a dictionary. -/
def KeyedNotes (w : World) : Prop := (Dict.keys w.notes).Nodup

/-- A listener that has read the notices finds them unchanged, unless a hook has taken them all. -/
def ReadSince (past : List (Step World Op)) (w : World) : Prop :=
  ∀ v, past = [⟨.look .peerNotices,v⟩] → KeyedNotes v ∧ (w.notes = v.notes ∨ w.notes = [])

lemma KeyedNotes.kept {l : Op} (hl : l.notesWritten = none) {w : World} (h : KeyedNotes w) :
    KeyedNotes (apply l w) := by
  unfold KeyedNotes
  cases ht : l.takes with
  | true =>
    rw [notes_taken ht]
    exact List.nodup_nil
  | false =>
    rw [notes_kept hl ht]
    exact h

lemma ReadSince.kept {l : Op} (hl : l.notesWritten = none) {past : List (Step World Op)} {w : World}
    (h : ReadSince past w) : ReadSince past (apply l w) := by
  intro v hv
  obtain ⟨hkeys,hnotes⟩ := h v hv
  refine ⟨hkeys,?_⟩
  cases ht : l.takes with
  | true => exact Or.inr (notes_taken ht w)
  | false =>
    rw [notes_kept hl ht]
    exact hnotes

lemma storeNotice_sole : notifying.Reserved Noticing KeyedNotes ReadSince
    fun l => l.notesWritten.isSome where
  traced := notifying_traced
  code task htask := by
    cases task with
    | store => cases htask
    | hook payload =>
      have hemits : (deliver payload).Emits fun l => l.notesWritten.isSome = false := by
        refine (deliver_ofHook payload).imp fun l hl => ?_
        cases l with
        | key op => cases op <;> first | rfl | cases hl
        | _ => rfl
      exact hemits.bind fun _ => trivial
  outside l hl := by
    cases l with
    | outside m => rfl
    | _ => cases hl
  start _ _ := by
    intro v hv
    cases hv
  other l w hl hw := by
    have hnone : l.notesWritten = none := by simpa using hl
    exact ⟨hw.kept hnone,fun _ h => h.kept hnone⟩
  own past t hw hread hG := by
    obtain ⟨l,w⟩ := t
    constructor
    · cases hl : l.notesWritten with
      | none => exact KeyedNotes.kept hl hw
      | some notes =>
        cases l with
        | key op =>
          cases op with
          | putNotices notes' =>
            obtain ⟨v,peer,notice,hpast,rfl⟩ := hG
            exact Dict.nodup_set (hread v hpast).1 peer notice
          | _ => cases hl
        | _ => cases hl
    · intro v hv
      cases past with
      | nil =>
        obtain ⟨rfl,rfl⟩ := Step.mk.inj (List.singleton_inj.mp hv)
        exact ⟨hw,Or.inl rfl⟩
      | cons st past => simp at hv

/-! The balance of one access. -/

/-- The notice is stored. -/
def pendingNote (q : Note) (w : World) : Bool := q ∈ w.notes

/-- Where a record has to do with a notice, it accounts for it. -/
def AccountsFor (q : Note) (r : Record World Op) : Prop :=
  (pendingNote q r.step.pre).toNat + (storesNote q r).toNat =
    (pendingNote q r.step.post).toNat + (replacesNote q r).toNat + (takesNote q r).toNat

lemma accounts_written {q : Note} {r : Record World Op} {read notes : List Note} {peer : Str}
    {notice : Notice} (hl : r.step.label = .key (.putNotices notes)) (hread : readNotes r.before = read)
    (hset : notes = Dict.set read peer notice)
    (hpre : r.step.pre.notes = read ∨ r.step.pre.notes = []) (hback : writesBack r = false) :
    AccountsFor q r := by
  have hpost : r.step.post.notes = notes := notes_written (by rw [hl]; rfl) _
  have htakes : takesNote q r = false := by simp [takesNote,hl,Op.takes]
  have hstores : storesNote q r = (decide (q ∈ notes) && decide (q ∉ read)) := by
    simp [storesNote,hl,Op.notesWritten,hread]
  have hreplaces : replacesNote q r = (decide (q ∈ r.step.pre.notes) && decide (q ∉ notes) &&
      notes.any (·.1 = q.1)) := by
    simp [replacesNote,hl,Op.notesWritten]
  have hsub : q ∈ r.step.pre.notes → q ∈ read := by
    intro hq
    rcases hpre with h | h
    · exact h ▸ hq
    · rw [h] at hq
      cases hq
  have hstays : q ∈ notes → q ∈ read → q ∈ r.step.pre.notes := by
    intro hq hr
    by_contra hgone
    have hb : writesBack r = true := by
      simp only [writesBack,hl,Op.notesWritten,Option.any_some,hread]
      exact List.any_eq_true.mpr ⟨q,hq,by simp [hr,hgone]⟩
    rw [hback] at hb
    cases hb
  unfold AccountsFor pendingNote
  rw [hpost,htakes,hstores,hreplaces]
  by_cases hq : q ∈ notes
  · by_cases hr : q ∈ read
    · simp [hq,hr,hstays hq hr]
    · have hgone : q ∉ r.step.pre.notes := fun h => hr (hsub h)
      simp [hq,hr,hgone]
  · by_cases hp : q ∈ r.step.pre.notes
    · rcases note_kept (hsub hp) with h | ⟨-,hany⟩
      · exact absurd (hset ▸ h) hq
      · rw [← hset] at hany
        simp [hq,hp,hany]
    · simp [hq,hp]

lemma accounts_unwritten {q : Note} {r : Record World Op} (hl : r.step.label.notesWritten = none) :
    AccountsFor q r := by
  have hstores : storesNote q r = false := by simp [storesNote,hl]
  have hreplaces : replacesNote q r = false := by simp [replacesNote,hl]
  unfold AccountsFor pendingNote
  rw [hstores,hreplaces]
  cases ht : r.step.label.takes with
  | true =>
    have hpost : r.step.post.notes = [] := notes_taken ht _
    simp [takesNote,ht,hpost]
  | false =>
    have hpost : r.step.post.notes = r.step.pre.notes := notes_kept hl ht _
    simp [takesNote,ht,hpost]

/-- Notices are neither made nor lost by the store: what was there or has been stored is still there,
or has been replaced or taken. -/
lemma store_balance (q : Note) {w : World} {L : List (Record World Op)} {ls : List Op}
    (hL : L.map (·.step) = stepsOf w ls) (h : ∀ r ∈ L, AccountsFor q r) :
    (pendingNote q w).toNat + L.countP (storesNote q) =
      (pendingNote q (after w ls)).toNat + L.countP (replacesNote q) + L.countP (takesNote q) := by
  induction L generalizing w ls with
  | nil =>
    cases ls with
    | nil => simp
    | cons l ls => simp [stepsOf] at hL
  | cons r L ih =>
    cases ls with
    | nil => simp [stepsOf] at hL
    | cons l ls =>
      simp only [List.map_cons,stepsOf,List.cons.injEq] at hL
      obtain ⟨hstep,hrest⟩ := hL
      have hr := h r (by simp)
      have hih := ih hrest fun r hr => h r (List.mem_cons_of_mem _ hr)
      have hpost : r.step.post = apply l w := by rw [hstep]; rfl
      unfold AccountsFor at hr
      rw [hpost,hstep] at hr
      rw [after_cons]
      simp only [List.countP_cons]
      have htoNat : ∀ b : Bool, b.toNat = if b = true then 1 else 0 := by decide
      simp only [htoNat] at hr hih ⊢
      omega

/-! What the hooks have in hand. -/

lemma takenNotes_untouched {past : List (Step World Op)} (h : Untouched past) :
    takenNotes past = [] := by
  have hnone : past.filter (·.label.takes) = [] := by
    rw [List.filter_eq_nil_iff]
    intro st hst
    simp [(h st hst).1]
  rw [takenNotes,hnone,List.flatMap_nil]

lemma no_offers {past : List (Step World Op)} (h : Untouched past) :
    past.any (·.label.offers) = false := by
  rw [List.any_eq_false]
  intro st hst
  simp [(h st hst).2]

lemma notesInHand_taken {past : List (Step World Op)} (h : Untouched past) (w : World) :
    notesInHand (past ++ [⟨.key .takeNotices,w⟩]) = w.notes := by
  have hoffers : (past ++ [(⟨.key .takeNotices,w⟩ : Step World Op)]).any (·.label.offers) = false := by
    rw [List.any_append,no_offers h]
    rfl
  unfold notesInHand
  rw [hoffers,takenNotes,List.filter_append,List.flatMap_append]
  have hpast : (past.filter (·.label.takes)).flatMap (·.pre.notes) = [] := takenNotes_untouched h
  rw [hpast]
  simp [Op.takes]

lemma notesInHand_other {past : List (Step World Op)} {t : Step World Op}
    (ht : t.label.takes = false) (ho : t.label.offers = false) :
    notesInHand (past ++ [t]) = notesInHand past := by
  simp [notesInHand,takenNotes,ht,ho]

/-- A hook's access moves the notice into its hand or out of it. -/
lemma hand_step (q : Note) {r : Record World Op} (h : Noticing r.before r.step) :
    (hasInHand q (r.before ++ [r.step])).toNat + (returnsNote q r).toNat =
      (hasInHand q r.before).toNat + (takesNote q r).toNat := by
  obtain ⟨process,past,l,w⟩ := r
  unfold returnsNote takesNote hasInHand
  dsimp only at h ⊢
  by_cases ht : l.takes = true
  · cases l with
    | key op =>
      cases op with
      | takeNotices =>
        have hbefore : notesInHand past = [] := by
          rw [notesInHand,no_offers h,if_neg (by simp)]
          exact takenNotes_untouched h
        rw [notesInHand_taken h w,hbefore]
        simp [Op.offers,Op.takes]
      | _ => cases ht
    | _ => cases ht
  · by_cases ho : l.offers = true
    · have hafter : notesInHand (past ++ [⟨l,w⟩]) = [] := by
        unfold notesInHand
        rw [if_pos (by simp [ho])]
      rw [hafter]
      simp [ho,ht]
    · rw [notesInHand_other (by simpa using ht) (by simpa using ho)]
      simp [ho,ht]

section
open Finset

/-- The hooks among the first `n` processes that have the notice in hand. -/
def hands (q : Note) (n : ℕ) (past : ℕ → List (Step World Op)) : ℕ :=
  ∑ i ∈ range n, (hasInHand q (past i)).toNat

lemma hands_update (q : Note) {n i : ℕ} (hi : i < n) (past : ℕ → List (Step World Op))
    (x : List (Step World Op)) : hands q n (Function.update past i x) +
      (hasInHand q (past i)).toNat = hands q n past + (hasInHand q x).toNat := by
  have hmem : i ∈ range n := mem_range.mpr hi
  have hrest : ∑ j ∈ (range n).erase i, (hasInHand q (Function.update past i x j)).toNat =
      ∑ j ∈ (range n).erase i, (hasInHand q (past j)).toNat := by
    refine sum_congr rfl fun j hj => ?_
    rw [Function.update_of_ne (ne_of_mem_erase hj)]
  have hself : (hasInHand q (Function.update past i x i)).toNat = (hasInHand q x).toNat := by
    rw [Function.update_self]
  have hold := add_sum_erase (range n) (fun j => (hasInHand q (past j)).toNat) hmem
  have hnew := add_sum_erase (range n)
    (fun j => (hasInHand q (Function.update past i x j)).toNat) hmem
  unfold hands
  omega

end

/-- No process that ends has the notice in hand. -/
def EndsEmptyHanded (q : Note) (c : Pool World Op) (past : ℕ → List (Step World Op))
    (es : List (Event NoticeTask Op)) : Prop :=
  ∀ es₁ i es₂, es = es₁ ++ .crash i :: es₂ → hasInHand q (notifying.pasts c past es₁ i) = false

lemma EndsEmptyHanded.tail {q : Note} {c : Pool World Op} {past : ℕ → List (Step World Op)}
    {e : Event NoticeTask Op} {es : List (Event NoticeTask Op)}
    (h : EndsEmptyHanded q c past (e::es)) :
    EndsEmptyHanded q (notifying.next c e).2 (pastOf past e (notifying.next c e).1) es := by
  intro es₁ i es₂ hes
  exact h (e::es₁) i es₂ (by rw [hes]; rfl)

/-- It is about the ends only. -/
lemma EndsEmptyHanded.of_crashes {q : Note} {c : Pool World Op} {past : ℕ → List (Step World Op)}
    {es : List (Event NoticeTask Op)}
    (h : ∀ k < es.length, ∀ i ∈ es[k]?.bind Event.crashes,
      hasInHand q (notifying.pasts c past (es.take k) i) = false) : EndsEmptyHanded q c past es := by
  rintro es₁ i es₂ rfl
  have hcrash := h es₁.length (by simp) i (by simp [Event.crashes])
  rwa [List.take_left] at hcrash

/-- The numbers of the processes that an event is about. -/
def numbersBelow (n : ℕ) (e : Event NoticeTask Op) : Prop :=
  ∀ i, e.actor = some i ∨ e.crashes = some i → i < n

lemma exists_numbersBelow (es : List (Event NoticeTask Op)) : ∃ n, ∀ e ∈ es, numbersBelow n e := by
  induction es with
  | nil => exact ⟨0,by simp⟩
  | cons e es ih =>
    obtain ⟨n,hn⟩ := ih
    obtain ⟨k,hk⟩ : ∃ k, numbersBelow k e := by
      cases e with
      | step i => exact ⟨i+1,by intro j hj; simp [Event.actor,Event.crashes] at hj; omega⟩
      | crash i => exact ⟨i+1,by intro j hj; simp [Event.actor,Event.crashes] at hj; omega⟩
      | _ => exact ⟨0,by intro j hj; simp [Event.actor,Event.crashes] at hj⟩
    refine ⟨max n k,fun e' he i hi => ?_⟩
    rcases List.mem_cons.mp he with rfl | he
    · exact lt_max_of_lt_right (hk i hi)
    · exact lt_max_of_lt_left (hn e' he i hi)

/-- An event moves the notice between the store, the hands and the contexts; only the end of a hook
loses what it has in hand. -/
lemma hands_next (q : Note) {n : ℕ} {c : Pool World Op} {past : ℕ → List (Step World Op)}
    {e : Event NoticeTask Op} (hn : numbersBelow n e)
    (hrec : ∀ r ∈ notifying.record c past e, notifying.Explained Noticing r) :
    let L := (notifying.record c past e).toList
    hands q n (pastOf past e (notifying.next c e).1) + L.countP (returnsNote q) ≤
        hands q n past + L.countP (takesNote q) ∧
      ((∀ i, e = .crash i → hasInHand q (past i) = false) →
        hands q n (pastOf past e (notifying.next c e).1) + L.countP (returnsNote q) =
          hands q n past + L.countP (takesNote q)) := by
  dsimp only
  cases e with
  | start i p =>
    have hnone : notifying.record c past (.start i p) = none := by
      simp only [System.record,System.next]
      split_ifs <;> rfl
    rw [hnone]
    simp [pastOf]
  | crash i =>
    have hi : i < n := hn i (Or.inr rfl)
    have hupdate := hands_update q hi past []
    have hempty : (hasInHand q []).toNat = 0 := rfl
    simp only [System.record,System.next,Option.map_none,Option.toList_none,List.countP_nil,pastOf]
    refine ⟨by omega,fun h => ?_⟩
    have hkept : (hasInHand q (past i)).toNat = 0 := by rw [h i rfl]; rfl
    omega
  | step i =>
    have hi : i < n := hn i (Or.inl rfl)
    rcases notifying.next_step c i with ⟨b,l,next,-,hnext⟩ | hnext
    · have hr : notifying.record c past (.step i) = some ⟨some i,past i,⟨l,c.state⟩⟩ := by
        rw [System.record,hnext]
        rfl
      have hG : Noticing (past i) ⟨l,c.state⟩ := hrec _ hr
      have hstep := hand_step q (r := ⟨some i,past i,⟨l,c.state⟩⟩) hG
      have hupdate := hands_update q hi past (past i ++ [⟨l,c.state⟩])
      rw [hr,hnext]
      have htoNat : ∀ b : Bool, b.toNat = if b = true then 1 else 0 := by decide
      simp only [pastOf,Option.toList_some,List.countP_singleton,htoNat] at hstep hupdate ⊢
      omega
    · have hr : notifying.record c past (.step i) = none := by
        rw [System.record,hnext]
        rfl
      rw [hr,hnext]
      simp [pastOf]
  | outside l =>
    have hquiet : ∀ r ∈ notifying.record c past (.outside l),
        returnsNote q r = false ∧ takesNote q r = false := by
      intro r hr
      have hexp := hrec r hr
      obtain ⟨t,-,rfl⟩ := Option.map_eq_some_iff.mp hr
      simp only [System.Explained,Event.actor] at hexp
      have hout : t.label.isOutside = true := hexp
      unfold returnsNote takesNote
      revert hout
      cases t.label <;> first | exact fun _ => ⟨rfl,rfl⟩ | rintro ⟨⟩
    have hpast : pastOf past (.outside l : Event NoticeTask Op)
        (notifying.next c (.outside l)).1 = past := rfl
    rw [hpast]
    cases hr : notifying.record c past (.outside l) with
    | none => simp
    | some r =>
      obtain ⟨hreturns,htakes⟩ := hquiet r hr
      simp [hreturns,htakes]

/-- What is taken is returned, or still in hand, or lost with a hook that has ended. -/
lemma hands_balance (q : Note) {n : ℕ} (es : List (Event NoticeTask Op)) {c : Pool World Op}
    {past : ℕ → List (Step World Op)} (hn : ∀ e ∈ es, numbersBelow n e)
    (hknown : System.Known Noticing (fun _ _ => True) c past) :
    let L := notifying.logFrom c past es
    hands q n (notifying.pasts c past es) + L.countP (returnsNote q) ≤
        hands q n past + L.countP (takesNote q) ∧
      (EndsEmptyHanded q c past es →
        hands q n (notifying.pasts c past es) + L.countP (returnsNote q) =
          hands q n past + L.countP (takesNote q)) := by
  dsimp only
  induction es generalizing c past with
  | nil => simp [System.pasts,System.logFrom]
  | cons e es ih =>
    obtain ⟨hknown',hrec⟩ := hknown.next (S := notifying) notifying_traced e
    obtain ⟨hle,heq⟩ := hands_next q (hn e (List.mem_cons_self ..)) hrec
    obtain ⟨hle',heq'⟩ := ih (fun e he => hn e (List.mem_cons_of_mem _ he)) hknown'
    simp only [System.pasts,System.logFrom,List.countP_append]
    refine ⟨by omega,fun hends => ?_⟩
    have hfirst := heq fun i hi => by
      subst hi
      exact hends [] i es rfl
    have hrest := heq' hends.tail
    omega

/-! A hook that has taken notices and reaches its offer returns them. -/

lemma hookText_ok {m : Machine} {config : Config} {row : MessageRow}
    (h : holdReason m config row = none) : ∃ text, hookText m config row = .ok text := by
  unfold holdReason at h
  split_ifs at h with henrolled
  obtain ⟨p,hp,he⟩ := List.any_eq_true.mp henrolled
  have hkey : p.1 = row.peer := beq_iff_eq.mp he
  have hsome : ∃ record, (allPeers m config.toPeerTable).lookup row.peer = some record := by
    refine Option.ne_none_iff_exists'.mp fun hnone => ?_
    exact Dict.lookup_eq_none_iff.mp hnone (hkey ▸ Dict.mem_keys hp)
  obtain ⟨record,hrecord⟩ := hsome
  simp [hookText,queuedText,routedPeer,hrecord,bind,Except.bind]

lemma offerRows_ok (m : Machine) (config : Config) (rows : List MessageRow) (b : Batch) :
    ∃ b', offerRows m config rows b = .ok b' := by
  induction rows generalizing b with
  | nil => exact ⟨b,rfl⟩
  | cons row rows ih =>
    unfold offerRows
    split
    · exact ⟨b,rfl⟩
    · split_ifs
      · split
        · exact ih _
        · rename_i hhold
          obtain ⟨text,htext⟩ := hookText_ok hhold
          simp only [htext,bind,Except.bind]
          split_ifs
          · exact ⟨b,rfl⟩
          · exact ih _
      · exact ⟨b,rfl⟩

lemma offeredContext_of_notice {notice : Str} (h : notice ≠ []) (m : Machine) (config : Config)
    (s : Store) : ∃ context, offeredContext m config notice s = .ok (some context) ∧
      notice <+: context := by
  have hsome : ∃ context, offeredContext m config notice s = .ok (some context) := by
    unfold offeredContext offerBatch
    by_cases hmode : hooksOffer s.keys = true
    · rw [if_neg (by simpa using hmode)]
      obtain ⟨b,hb⟩ := offerRows_ok m config (s.pending.take 4)
        ⟨s,s.keys.remaining,if notice = [] then [] else [notice]⟩
      have hpieces : b.pieces ≠ [] := by
        rw [offerRows_pieces hb,if_neg h]
        simp
      rw [hb]
      exact ⟨_,congrArg Except.ok (if_neg hpieces)⟩
    · rw [if_pos (by simpa using hmode)]
      exact ⟨notice,congrArg Except.ok (if_neg h)⟩
  obtain ⟨context,hcontext⟩ := hsome
  refine ⟨context,hcontext,?_⟩
  rw [offeredContext_some hcontext,noticePieces,if_neg h]
  cases fitting notice.length (offeredTexts m config s) with
  | nil => simp
  | cons text texts =>
    rw [List.singleton_append,List.intercalate_cons_cons]
    exact ⟨_,(List.append_assoc ..).symm⟩

lemma noticesText_ne_nil {m : Machine} {notes : List Note} (h : notes ≠ []) :
    noticesText m notes ≠ [] := by
  rw [noticesText,if_neg h]
  have hnotice : NOTICE ≠ [] := by decide
  simp [hnotice]

/-- The record is a hook's return, and the context begins with the notice and those taken with it. -/
def ReturnsIn (q : Note) (r : Record World Op) : Prop :=
  ∃ config w context, q ∈ World.notes w ∧ ⟨.key .takeNotices,w⟩ ∈ r.before ∧
    r.step.label = .inbox (.offer config (noticesText w.machine w.notes)) ∧
    offeredContext r.step.pre.machine config (noticesText w.machine w.notes) r.step.pre.store =
      .ok (some context) ∧ noticesText w.machine w.notes <+: context

lemma returned_in_context {q : Note} {r : Record World Op} (hG : Noticing r.before r.step)
    (h : returnsNote q r = true) : ReturnsIn q r := by
  simp only [returnsNote,Bool.and_eq_true] at h
  obtain ⟨hoffers,hhand⟩ := h
  obtain ⟨process,past,l,w'⟩ := r
  cases l with
  | inbox op =>
    cases op with
    | offer config notice =>
      obtain ⟨u,w,hpast,hu,rfl⟩ := hG
      have hq : q ∈ w.notes := by
        have := of_decide_eq_true hhand
        rwa [hpast,notesInHand_taken hu w] at this
      obtain ⟨context,hcontext,hpre⟩ := offeredContext_of_notice
        (noticesText_ne_nil (m := w.machine) (List.ne_nil_of_mem hq)) w'.machine config w'.store
      refine ⟨config,w,context,hq,?_,rfl,hcontext,hpre⟩
      rw [hpast]
      simp
    | _ => cases hoffers
  | _ => cases hoffers

/-! Runs. -/

section
variable {w : World} {es : List (Event NoticeTask Op)}

lemma notifying_explained (w : World) (es : List (Event NoticeTask Op)) :
    ∀ r ∈ notifying.log w es, notifying.Explained Noticing r :=
  (System.log_explained (S := notifying) notifying_traced es
    (System.known_idle (G := Noticing) (Q := fun _ _ => True) w)).2

lemma notifying_accounts (hkeys : KeyedNotes w)
    (hback : ∀ r ∈ notifying.log w es, writesBack r = false) (q : Note) :
    ∀ r ∈ notifying.log w es, AccountsFor q r := by
  intro r hr
  have hexp := notifying_explained w es r hr
  have hread := (storeNotice_sole.log_keeps es
    (System.known_idle (G := Noticing) (Q := fun _ _ => True) w)
    (System.Reserved.idle_keeps hkeys)).2 r hr
  cases hl : r.step.label.notesWritten with
  | none => exact accounts_unwritten hl
  | some notes =>
    rw [hl] at hread
    have hlabel : r.step.label = .key (.putNotices notes) := by
      revert hl
      cases r.step.label with
      | key op => cases op <;> first | (rintro ⟨⟩; rfl) | rintro ⟨⟩
      | _ => rintro ⟨⟩
    cases hi : r.process with
    | none =>
      simp only [System.Explained,hi] at hexp
      rw [hlabel] at hexp
      cases hexp
    | some i =>
      simp only [System.Explained,hi,Noticing,hlabel] at hexp
      obtain ⟨v,peer,notice,hpast,hset⟩ := hexp
      have hnotes : readNotes r.before = v.notes := by rw [hpast]; rfl
      exact accounts_written hlabel hnotes hset ((hread.2 rfl) v hpast).2 (hback r hr)

end

/-- One listener and any number of hooks, in every interleaving and with ends at every point, where
no listener writes back what it has read and a hook has taken since: a notice is returned at most as
often as it has been stored; and if no hook that has it in hand ends or is still under way, every
copy of it is still stored, or replaced by a later notice of its peer, or returned. -/
theorem notices_returned_once {w : World} {es : List (Event NoticeTask Op)} (hkeys : KeyedNotes w)
    (hback : ∀ r ∈ notifying.log w es, writesBack r = false) (q : Note) :
    (∀ r ∈ notifying.log w es, returnsNote q r = true → ReturnsIn q r) ∧
    (notifying.log w es).countP (returnsNote q) ≤
      (pendingNote q w).toNat + (notifying.log w es).countP (storesNote q) ∧
    (EndsEmptyHanded q (.idle w) (fun _ => []) es →
      (∀ i, hasInHand q (notifying.pasts (.idle w) (fun _ => []) es i) = false) →
      (pendingNote q w).toNat + (notifying.log w es).countP (storesNote q) =
        (pendingNote q (notifying.final (.idle w) es).state).toNat +
          (notifying.log w es).countP (replacesNote q) +
          (notifying.log w es).countP (returnsNote q)) := by
  obtain ⟨ls,hls,hfinal⟩ := notifying.exists_labels (.idle w) es
  have hL : (notifying.log w es).map (·.step) = stepsOf w ls := (notifying.log_steps w es).trans hls
  have hstore := store_balance q hL (notifying_accounts hkeys hback q)
  obtain ⟨n,hn⟩ := exists_numbersBelow es
  obtain ⟨hle,heq⟩ := hands_balance q es hn
    (System.known_idle (G := Noticing) (Q := fun _ _ => True) w)
  have hidle : hands q n (fun _ => []) = 0 := by simp [hands,hasInHand,notesInHand,takenNotes]
  rw [hidle] at hle heq
  refine ⟨?_,?_,?_⟩
  · intro r hr hreturns
    have hexp := notifying_explained w es r hr
    cases hi : r.process with
    | none =>
      simp only [System.Explained,hi] at hexp
      have hout : r.step.label.isOutside = true := hexp
      revert hout hreturns
      unfold returnsNote
      cases r.step.label <;> first | (rintro ⟨⟩) | (intro _; rintro ⟨⟩)
    | some i =>
      simp only [System.Explained,hi] at hexp
      exact returned_in_context hexp hreturns
  · change hands q n _ + (notifying.log w es).countP (returnsNote q) ≤
      0 + (notifying.log w es).countP (takesNote q) at hle
    omega
  · intro hends hfree
    have hnone : hands q n (notifying.pasts (.idle w) (fun _ => []) es) = 0 := by
      simp [hands,hfree]
    have htaken := heq hends
    change hands q n _ + (notifying.log w es).countP (returnsNote q) =
      0 + (notifying.log w es).countP (takesNote q) at htaken
    rw [hfinal]
    change _ = (pendingNote q (after w ls)).toNat + _ + _
    omega

/-! A notice, and a hook while the listener stores the notice of another peer. -/

def sampleNote : Note := (str "41:9",⟨hookMachine.now,str "held",none,str "w"⟩)

def storing (peer : String) : NoticeTask := .store (str peer) (str "held") (str "w") none

/-- The first notice is stored; the listener begins to store a second one and makes `k` accesses;
a hook takes the notices and returns; the listener goes on, and a second hook runs. -/
def noticeRun (k : ℕ) : List (Event NoticeTask Op) :=
  [.start 0 (storing "41:9"),.step 0,.step 0,.crash 0,.start 0 (storing "51:9")] ++
    List.replicate k (.step 0) ++ .start 1 (.hook sampleToolUse) :: List.replicate 8 (.step 1) ++
    List.replicate 2 (.step 0) ++ .start 2 (.hook sampleToolUse) :: List.replicate 8 (.step 2)

/-- The notice is stored; a hook takes it, and ends before it can offer. -/
def brokenRun : List (Event NoticeTask Op) :=
  [.start 0 (storing "41:9"),.step 0,.step 0,.start 1 (.hook sampleToolUse)] ++
    List.replicate 7 (.step 1) ++ [.crash 1]

lemma configured_keyed : KeyedNotes configured := List.nodup_nil

/-- Where processes with the first numbers only make accesses, the others have nothing in hand. -/
lemma free_of_few {q : Note} {w : World} {n : ℕ} {es : List (Event NoticeTask Op)}
    (hfew : es.all (fun e => e.actor.all (· < n)) = true)
    (h : ∀ i < n, hasInHand q (notifying.pasts (.idle w) (fun _ => []) es i) = false) (i : ℕ) :
    hasInHand q (notifying.pasts (.idle w) (fun _ => []) es i) = false := by
  by_cases hi : i < n
  · exact h i hi
  · have hpast : notifying.pasts (.idle w) (fun _ => []) es i = [] := by
      refine notifying.pasts_idle (fun e he hactor => hi ?_) _ rfl
      have hlt := List.all_eq_true.mp hfew e he
      rw [hactor] at hlt
      simpa using hlt
    rw [hpast]
    rfl

/-- The second notice is stored between the hooks, and each is returned by one. -/
theorem notices_returned_once_sample :
    let L := notifying.log configured (noticeRun 0)
    (∀ r ∈ L, returnsNote sampleNote r = true → ReturnsIn sampleNote r) ∧
      L.countP (returnsNote sampleNote) ≤
        (pendingNote sampleNote configured).toNat + L.countP (storesNote sampleNote) ∧
      (pendingNote sampleNote configured).toNat + L.countP (storesNote sampleNote) =
        (pendingNote sampleNote (notifying.final (.idle configured) (noticeRun 0)).state).toNat +
          L.countP (replacesNote sampleNote) + L.countP (returnsNote sampleNote) := by
  have honce := @notices_returned_once configured (noticeRun 0) configured_keyed (by decide +kernel) sampleNote
  have hends : EndsEmptyHanded sampleNote (.idle configured) (fun _ => []) (noticeRun 0) :=
    .of_crashes (by decide +kernel)
  exact ⟨honce.1,honce.2.1,honce.2.2 hends (free_of_few (n := 3) (by decide +kernel) (by decide +kernel))⟩

/-- A hook between the two accesses of a listener: the notice is written back and returned again. And
a hook that ends between its two transactions: the notice is gone. -/
theorem notice_returned_again_or_lost :
    (¬ ∀ (w : World) (es : List (Event NoticeTask Op)) (q : Note), KeyedNotes w →
      (notifying.log w es).countP (returnsNote q) ≤
        (pendingNote q w).toNat + (notifying.log w es).countP (storesNote q)) ∧
    ¬ ∀ (w : World) (es : List (Event NoticeTask Op)) (q : Note), KeyedNotes w →
      (∀ i, hasInHand q (notifying.pasts (.idle w) (fun _ => []) es i) = false) →
      (pendingNote q w).toNat + (notifying.log w es).countP (storesNote q) ≤
        (pendingNote q (notifying.final (.idle w) es).state).toNat +
          (notifying.log w es).countP (replacesNote q) +
          (notifying.log w es).countP (returnsNote q) := by
  constructor
  · intro h
    have htwice := h configured (noticeRun 1) sampleNote configured_keyed
    revert htwice
    decide +kernel
  · intro h
    have hfree := @free_of_few sampleNote configured 2 brokenRun (by decide +kernel) (by decide +kernel)
    have hlost := h configured brokenRun sampleNote configured_keyed hfree
    revert hlost
    decide +kernel

end PeerChat
