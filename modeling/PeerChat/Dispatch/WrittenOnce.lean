import PeerChat.Dispatch.SentSteps
import PeerChat.System.Listening

/-! Outgoing messages over whole runs: with one listener at a time, and peers that answer only what
was written, no frame is written twice, whatever crashes. -/
namespace PeerChat
open Python Relational Wire Interleaving

/-- Has a frame of the row been handed to a socket write? -/
def Handed (w : World) (id : Str) : Prop := ∃ e ∈ w.wire, e.1 = id

/-- No row has been written twice; a row that has been written is there, and not pending. -/
structure OnceWritten (w : World) : Prop where
  once : ∀ id, w.wire.countP (·.1 = id) ≤ 1
  known : ∀ id, Handed w id → ∃ st, w.store.sentStatus id = some st ∧ st ≠ .pending

/-- What a process does to the outgoing rows; `listener` says whether it holds the lock. -/
def Guarantee (listener : Bool) (w : World) : Op → Prop
  | .sending (.markWriting id) => listener = true ∧ w.store.sentStatus id = some .pending
  | .sending (.sendFrame id _) =>
    listener = true ∧ ¬ Handed w id ∧ ∃ st, w.store.sentStatus id = some st ∧ st ≠ .pending
  | .sending (.finish id _ _) =>
    listener = true ∧ ∃ st, w.store.sentStatus id = some st ∧ st ≠ .pending
  | .sending (.acceptReceipt _ id _) => Handed w id
  | .restart => listener = true
  | _ => True

/-- What a process sees others do: beside a listener there is no other. -/
def Rely (listener : Bool) (w : World) (l : Op) : Prop := listener = true → Guarantee false w l

lemma handed_apply {w : World} {id : Str} (h : Handed w id) (op : Op) : Handed (apply op w) id := by
  obtain ⟨e,he,hid⟩ := h
  cases op with
  | sending op =>
    cases op with
    | sendFrame mid data => exact ⟨e,List.mem_append_left _ he,hid⟩
    | _ => exact ⟨e,he,hid⟩
  | _ => exact ⟨e,he,hid⟩

/-- Only the socket write adds to the wire. -/
lemma handed_of_apply {w : World} {op : Op} {id : Str} (h : Handed (apply op w) id) :
    Handed w id ∨ ∃ data, op = .sending (.sendFrame id data) := by
  cases op with
  | sending op =>
    cases op with
    | sendFrame mid data =>
      obtain ⟨e,he,hid⟩ := h
      rcases List.mem_append.mp he with he | he
      · exact Or.inl ⟨e,he,hid⟩
      · obtain rfl := List.mem_singleton.mp he
        cases hid
        exact Or.inr ⟨data,rfl⟩
    | _ => exact Or.inl h
  | _ => exact Or.inl h

/-- A row that is no longer pending never is again. -/
lemma SentStep.not_pending {op : Op} {id : Str} {st : SentStatus} {b : Option SentStatus}
    (h : SentStep op id (some st) b) (hst : st ≠ .pending) : ∃ st', b = some st' ∧ st' ≠ .pending := by
  rcases h with rfl | h
  · exact ⟨st,rfl,hst⟩
  · split at h
    · cases h.2.1
    · exact ⟨_,h.2.2,by simp⟩
    · rename_i ending _
      exact ⟨_,h.2.2,by cases ending <;> simp [Store.SendEnd.toStatus]⟩
    · exact ⟨_,h.2.2,by simp⟩
    · exact ⟨_,h.2,by simp⟩
    · exact h.elim

/-- A row becomes `writing` only by the dispatcher's mark. -/
lemma SentStep.to_writing {op : Op} {id : Str} {a : Option SentStatus}
    (h : SentStep op id a (some .writing)) :
    a = some .writing ∨ op = .sending (.markWriting id) := by
  rcases h with h | h
  · exact Or.inl h.symm
  · split at h
    · cases h.2.2
    · obtain ⟨rfl,-,-⟩ := h
      exact Or.inr rfl
    · rename_i ending _
      have := h.2.2
      cases ending <;> cases this
    · cases h.2.2
    · cases h.2
    · exact h.elim

/-- Every guaranteed access keeps the invariant. -/
lemma OnceWritten.step {listener : Bool} {w : World} {op : Op} (h : OnceWritten w)
    (hg : Guarantee listener w op) : OnceWritten (apply op w) := by
  constructor
  · intro id
    by_cases hs : ∃ data, op = .sending (.sendFrame id data)
    · obtain ⟨data,rfl⟩ := hs
      have hno : w.wire.countP (·.1 = id) = 0 := by
        rw [List.countP_eq_zero]
        exact fun e he hid => hg.2.1 ⟨e,he,by simpa using hid⟩
      change (w.wire ++ [(id,data)]).countP (·.1 = id) ≤ 1
      simp [List.countP_append,hno]
    · have hsame : (apply op w).wire.countP (·.1 = id) = w.wire.countP (·.1 = id) := by
        cases op with
        | sending op =>
          cases op with
          | sendFrame mid data =>
            change (w.wire ++ [(mid,data)]).countP (·.1 = id) = _
            have hne : mid ≠ id := by
              rintro rfl
              exact hs ⟨data,rfl⟩
            simp [List.countP_append,hne]
          | _ => rfl
        | _ => rfl
      rw [hsame]
      exact h.once id
  · intro id hid
    rcases handed_of_apply hid with hold | ⟨data,rfl⟩
    · obtain ⟨st,hst,hne⟩ := h.known id hold
      have hstep := sent_step op w id
      rw [hst] at hstep
      exact hstep.not_pending hne
    · exact hg.2.2

/-! The dispatcher's assertions about its row, each stable among the steps of others. -/

/-- The row is there and not pending. -/
def Taken (id : Str) (w : World) : Prop := ∃ st, w.store.sentStatus id = some st ∧ st ≠ .pending

/-- The row is taken and not written yet. -/
def Unsent (id : Str) (w : World) : Prop := ¬ Handed w id ∧ Taken id w

abbrev StableFor (listener : Bool) (P : World → Prop) : Prop :=
  Stable OnceWritten (Rely listener) P

lemma stable_handed (listener : Bool) (id : Str) : StableFor listener (Handed · id) :=
  fun _ op _ _ h => handed_apply h op

lemma stable_taken (listener : Bool) (id : Str) : StableFor listener (Taken id) := by
  rintro w op - - ⟨st,hst,hne⟩
  have hstep := sent_step op w id
  rw [hst] at hstep
  exact hstep.not_pending hne

lemma stable_unsent (id : Str) : StableFor true (Unsent id) := by
  rintro w op hI hR ⟨hno,htaken⟩
  refine ⟨fun h => ?_,stable_taken true id w op hI hR htaken⟩
  rcases handed_of_apply h with h | ⟨data,rfl⟩
  · exact hno h
  · cases (hR rfl).1

lemma stable_pending (id : Str) : StableFor true fun w => w.store.sentStatus id = some .pending := by
  intro w op hI hR h
  have hstep := sent_step op w id
  rw [h] at hstep
  rcases hstep with hb | hb
  · exact hb
  · split at hb
    · cases hb.2.1
    · cases (hR rfl).1
    · cases (hR rfl).1
    · obtain ⟨rfl,-,-⟩ := hb
      -- a receipt is for a written row, and a written row is not pending
      obtain ⟨st,hst,hne⟩ := hI.known _ (hR rfl)
      rw [h] at hst
      exact absurd (Option.some.inj hst).symm hne
    · cases hb.1
    · exact hb.elim

/-! The programs keep their guarantee. -/

/-- The program keeps the guarantee of its process, from states where `P` holds. -/
abbrev Keeps {α : Type} (listener : Bool) (P : World → Prop) (p : Code α) : Prop :=
  Sat OnceWritten (Rely listener) (Guarantee listener) P p fun _ _ => True

lemma guarantee_of_made {ρ : Rights} {w : World} {op : Op} {listener : Bool}
    (hl : ρ.listener = false) (hr : ρ.receipt = false) (h : Made ρ op) : Guarantee listener w op := by
  have hl' : ¬ ρ.listener = true := by simp [hl]
  have hr' : ¬ ρ.receipt = true := by simp [hr]
  cases op with
  | sending op => cases op <;> trivial
  | restart => exact absurd h hl'
  | _ => trivial

lemma keeps_of_made {α : Type} {ρ : Rights} {p : Code α} {listener : Bool}
    (h : p.Emits (Made ρ)) (hl : ρ.listener = false) (hr : ρ.receipt = false) :
    Keeps listener (fun _ => True) p :=
  Sat.of_emits h fun _ _ _ => guarantee_of_made hl hr

lemma finishSend_keeps (id : Str) (r : Except Exc Unit) : Keeps true (Taken id) (finishSend id r) := by
  have hfinish : ∀ (ending : Store.SendEnd) (detail : Str) (b : Bool), Keeps true (Taken id)
      (.act (.sending (.finish id ending detail)) fun _ => .ret b) :=
    fun _ _ _ _ _ h => ⟨⟨rfl,h⟩,_,stable_true,trivial,fun _ _ => trivial⟩
  simp only [finishSend]
  split
  · exact hfinish _ _ _
  · split_ifs
    · exact hfinish _ _ _
    · exact fun _ _ => trivial

lemma replyHops_keeps {P : World → Prop} (hP : StableFor true P) (peer : Option Str)
    (row : OutgoingRow) : Sat OnceWritten (Rely true) (Guarantee true) P (replyHops peer row)
      fun _ => P := by
  refine Sat.frame (L := fun l => ∃ what, l = .look what)
    (replyHops_emits (fun what _ => ⟨what,rfl⟩) peer row) hP ?_ ?_
  · rintro s l - - ⟨what,rfl⟩
    trivial
  · rintro s l - ⟨what,rfl⟩ h
    exact h

lemma dispatchOutgoing_keeps (U : Interp) (config : Config) (row : OutgoingRow) :
    Keeps true (fun w => w.store.sentStatus row.id = some .pending) (dispatchOutgoing U config row) := by
  intro w hI hpending
  refine ⟨⟨rfl,hpending⟩,Unsent row.id,stable_unsent _,⟨?_,?_⟩,?_⟩
  · intro hhanded
    rcases handed_of_apply hhanded with h | ⟨data,h⟩
    · obtain ⟨st,hst,hne⟩ := hI.known _ h
      rw [hpending] at hst
      exact hne (Option.some.inj hst).symm
    · cases h
  · refine ⟨.writing,?_,by simp⟩
    change (w.store.markWriting row.id).sentStatus row.id = _
    rw [Store.sentStatus_markWriting,if_pos rfl,hpending]
    rfl
  · intro w₁ hI₁ h₁
    refine ⟨trivial,Unsent row.id,stable_unsent _,h₁,?_⟩
    simp only [Prog.bind]
    split
    · exact (finishSend_keeps ..).mono fun _ h => h.2
    · refine (replyHops_keeps (stable_unsent row.id) _ row).bind fun hops => ?_
      intro w₂ hI₂ h₂
      refine ⟨trivial,Unsent row.id,stable_unsent _,h₂,?_⟩
      simp only [Prog.bind]
      split
      · exact (finishSend_keeps ..).mono fun _ h => h.2
      · exact fun w₃ hI₃ h₃ => ⟨⟨rfl,h₃⟩,Taken row.id,stable_taken true _,h₃.2,finishSend_keeps ..⟩

lemma dispatch_keeps (U : Interp) (config : Config) :
    Keeps true (fun _ => True) (dispatch U config) := by
  intro w hI _
  cases hrow : w.store.nextPending with
  | some row =>
    refine ⟨trivial,_,stable_pending row.id,?_,?_⟩
    · rw [apply_look]
      have hmem := List.mem_of_head? hrow
      rw [Table.select_mem] at hmem
      rw [Store.sentStatus,Table.find_of_mem hmem.1,Option.map_some]
      exact congrArg some (by simpa using hmem.2)
    · simp only [Prog.bind,hrow]
      exact dispatchOutgoing_keeps U config row
  | none =>
    refine ⟨trivial,_,stable_true,trivial,?_⟩
    simp only [Prog.bind,hrow]
    refine Sat.of_emits (P := fun l => ∀ w, Guarantee true w l)
      (dispatchInbox_emits (fun _ _ _ => trivial) (fun _ _ _ => trivial) (fun _ _ => trivial) config) ?_
    exact fun s l _ h => h s

lemma serve_keeps (U : Interp) (pid : Pid) (passes : List Bool) :
    Keeps true (fun _ => True) (serve U pid passes) := by
  refine serve_sat ?_ U (dispatch_keeps U) pid passes
  intro l w _ hl
  cases l with
  | restart => rfl
  | sending op => exact hl.elim
  | _ => trivial

/-- A stored receipt is for a written row, where its process starts only for such a one. -/
lemma receipt_keeps (peer mid : Str) (body : Receipt) :
    Keeps false (Handed · mid) (accept peer (.receipt mid body)) := by
  intro w _ h
  refine ⟨trivial,_,stable_handed false mid,h,?_⟩
  simp only [Prog.bind]
  split_ifs
  · exact fun _ _ => trivial
  · exact fun w₁ _ h₁ => ⟨h₁,_,stable_true,trivial,fun _ _ => trivial⟩

/-- The bridge with honest peers meets its guarantees. -/
theorem bridge_sound (U : Interp) :
    (bridge U true).Sound OnceWritten Rely Guarantee where
  start p w _ hallowed := by
    have hmade := p.code_made U
    cases p with
    | accept peer frame =>
      cases frame with
      | receipt mid body =>
        refine ⟨_,stable_handed false mid,?_,Sat.bind (receipt_keeps peer mid body) fun _ _ _ => trivial⟩
        simpa [bridge,Process.unfounded,Handed] using hallowed
      | _ => exact ⟨_,stable_true,trivial,keeps_of_made hmade rfl rfl⟩
    | serve pid passes => exact ⟨_,stable_true,trivial,serve_keeps U pid passes⟩
    | _ => exact ⟨_,stable_true,trivial,keeps_of_made hmade rfl rfl⟩
  compat e e' w l _ hne hg := by
    rintro rfl
    cases e with
    | true => exact absurd ⟨rfl,rfl⟩ hne
    | false => exact hg
  outside e w l _ hout := by
    intro _
    cases l <;> trivial
  invariant e w l hI hg := hI.step hg
  invariant_outside w l hI hout := by
    refine @OnceWritten.step false w l hI ?_
    cases l <;> trivial

/-- In every run from a new database, with at most one listener at a time and crashes anywhere:
every row's frame is handed to a socket write at most once; no row returns to `pending`, and none
that is not pending becomes `writing`; the startup updates of a listener leave no row `writing`. -/
theorem written_once (U : Interp) (m : Machine) (es : Schedule) (id : Str) :
    ((bridge U true).final (.idle (.new m)) es).state.wire.countP (·.1 = id) ≤ 1 ∧
    ∀ t ∈ (bridge U true).trace (.idle (.new m)) es,
      (∀ st, t.pre.store.sentStatus id = some st → st ≠ .pending →
        t.post.store.sentStatus id ≠ some .pending ∧
        (st ≠ .writing → t.post.store.sentStatus id ≠ some .writing)) ∧
      (t.label = .restart → t.post.store.sentStatus id ≠ some .writing) := by
  have hnew : OnceWritten (World.new m) := by
    constructor
    · simp [World.new]
    · rintro id ⟨e,he,-⟩
      cases he
  obtain ⟨hfinal,hfair⟩ := (bridge_sound U).trace_fair es (Pool.idle_safe hnew)
  refine ⟨hfinal.1.once id,fun t ht => ?_⟩
  obtain ⟨-,hg⟩ := hfair t ht
  obtain ⟨op,w⟩ := t
  have hstep := sent_step op w id
  refine ⟨fun st (hst : w.store.sentStatus id = some st) hne => ⟨?_,?_⟩,?_⟩
  · rw [hst] at hstep
    obtain ⟨st',hst',hne'⟩ := hstep.not_pending hne
    intro h
    exact hne' (Option.some.inj (hst'.symm.trans h))
  · intro hw h
    change (apply op w).store.sentStatus id = some .writing at h
    rw [h] at hstep
    rcases hstep.to_writing with h' | rfl
    · rw [hst] at h'
      exact hw (Option.some.inj h')
    · -- only a pending row is marked
      rcases hg with ⟨e,hg⟩ | hout
      · have hp : w.store.sentStatus id = some .pending := hg.2
        rw [hst] at hp
        exact hne (Option.some.inj hp)
      · cases hout
  · rintro (rfl : op = .restart)
    exact sentStatus_restart w.store id

end PeerChat
