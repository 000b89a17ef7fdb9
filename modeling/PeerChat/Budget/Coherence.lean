import PeerChat.Budget.Accounting
import PeerChat.Budget.Wakes
import PeerChat.Dispatch.Guarded

/-! The three keys of an allowance window. A renewal and the owner's configuration write them in one
transaction; a start writes them one by one, and what others write in between stays. -/
namespace PeerChat
open Python Wire Interleaving

/-- The allowance is within a window of this size. -/
def Fits : Budget → Option Budget → Prop
  | .unlimited, value => value = some .unlimited
  | .count n, value => ∃ r, value = some (.count r) ∧ 0 ≤ r ∧ r ≤ n

/-- Both allowances are within the declared window, where there is one. -/
def WindowCoherent (k : Meta) : Prop :=
  ∀ limit, k.budgetLimit = some limit → Fits limit k.remaining ∧ Fits limit k.wakeRemaining

/-- A whole window fits in itself. -/
lemma fits_parseBudget (b : Budget) : Fits (parseBudget b) (some (parseBudget b)) := by
  cases b with
  | unlimited => rfl
  | count n => exact ⟨_,rfl,(parseBudget_valid (.count n)).1,le_refl _⟩

lemma Fits.balance {limit : Budget} {a b : Option Budget} {k : ℕ} (h : Fits limit a)
    (hb : Balance a b k) : Fits limit b := by
  cases limit with
  | unlimited =>
    obtain rfl : a = some .unlimited := h
    rcases b with _ | _ | n
    · exact hb.elim
    · rfl
    · exact hb.elim
  | count n =>
    obtain ⟨r,rfl,hr,hle⟩ := h
    rcases b with _ | _ | r'
    · exact hb.elim
    · exact hb.elim
    · simp only [Balance] at hb
      exact ⟨r',rfl,by omega,by omega⟩

lemma Fits.spend {limit b : Budget} (h : Fits limit (some b)) (ha : available (some b) = true) :
    Fits limit (some (spend b)) := h.balance (Balance.spend ha)

/-! The accesses that write a window. -/

/-- Does the access write a key of the window anew? -/
def opensWindow (w : World) : Op → Bool
  | .key (.renew turn) => (renews turn w.store.keys).isSome
  | .key (.putBudget ..) => true
  | .key (.configureDelivery _ (some _)) => true
  | _ => false

/-- The window write that a start has still to complete, after one more access. -/
def windowStage (stage : Option (BudgetKey × Budget)) : Op → Option (BudgetKey × Budget)
  | .key (.putBudget .budgetLimit _) => none
  | .key (.putBudget key value) => some (key,value)
  | _ => stage

/-- The last window write of a process that is between its three writes. -/
def unfinished (past : List (Step World Op)) : Option (BudgetKey × Budget) :=
  past.foldl (fun stage t => windowStage stage t.label) none

lemma unfinished_append (past : List (Step World Op)) (t : Step World Op) :
    unfinished (past ++ [t]) = windowStage (unfinished past) t.label := by
  rw [unfinished,List.foldl_append]
  rfl

/-- Every access that writes a window comes in its place of the process. -/
def InSequence (past : List (Step World Op)) (t : Step World Op) : Prop :=
  match t.label with
  | .key (.putBudget .wakeRemaining value) => unfinished past = some (.remaining,value)
  | .key (.putBudget .budgetLimit value) => unfinished past = some (.wakeRemaining,value)
  | .key (.putBudget .remaining _) | .key (.renew _) | .key (.configureDelivery _ (some _)) =>
    unfinished past = none
  | _ => True

/-- The process is not between its window writes. -/
def Outside {α : Type} (past : List (Step World Op)) (_ : α) : Prop := unfinished past = none

def Op.putsBudget : Op → Bool
  | .key (.putBudget ..) => true
  | _ => false

lemma outside_of_emits {α : Type} {p : Code α} (hp : p.Emits fun l => l.putsBudget = false)
    {past : List (Step World Op)} (h : unfinished past = none) :
    p.Traced InSequence Outside past := by
  refine Prog.Traced.of_emits (K := fun u => unfinished u = none) hp ?_ h
  intro u l s hu hl
  constructor
  · cases l with
    | key op =>
      cases op with
      | putBudget key value => cases hl
      | configureDelivery mode budget => cases budget <;> first | exact hu | trivial
      | renew turn => exact hu
      | _ => trivial
    | _ => trivial
  · rw [unfinished_append]
    cases l with
    | key op =>
      cases op with
      | putBudget key value => cases hl
      | _ => exact hu
    | _ => exact hu

lemma putWindow_traced (budget : Budget) {past : List (Step World Op)}
    (h : unfinished past = none) : (putWindow budget).Traced InSequence Outside past := by
  intro s
  refine ⟨h,fun s₁ => ⟨?_,fun s₂ => ⟨?_,?_⟩⟩⟩
  · change unfinished _ = _
    rw [unfinished_append]
    rfl
  · change unfinished _ = _
    rw [unfinished_append]
    rfl
  · change unfinished _ = _
    rw [unfinished_append]
    rfl

/-! No other access of a start, and none of another program, puts a budget. -/

lemma made_putsNone {ρ : Rights} (hs : ρ.starts = false) (l : Op) (h : Made ρ l) :
    l.putsBudget = false := by
  cases l with
  | key op =>
    cases op with
    | putBudget key value => exact absurd (hs.symm.trans h) Bool.false_ne_true
    | _ => rfl
  | _ => rfl

lemma writeBridge_traced (args : StartArgs) (previous : Option Config)
    (requested : Option (Str × PeerRecord)) (config : Config) (runtime : Option Runtime)
    (live : Bool) {past : List (Step World Op)} (h : unfinished past = none) :
    (writeBridge args previous requested config runtime live).Traced InSequence Outside past := by
  have hpeers : (writePeers requested config).Emits fun l => l.putsBudget = false :=
    (writePeers_made (ρ := { setup := true }) rfl ..).imp (made_putsNone rfl)
  have howner := writeOwner_emits (P := fun l => l.putsBudget = false) rfl (fun _ => rfl) previous
    config.ownerIdentity
  refine Prog.Traced.bind (outside_of_emits howner h) fun u _ hu => ?_
  refine Prog.Traced.bind (outside_of_emits (emit_emits rfl) hu) fun u _ hu => ?_
  refine Prog.Traced.bind (outside_of_emits hpeers hu) fun u _ hu => ?_
  refine Prog.Traced.bind (outside_of_emits (writeMode_emits (fun _ => rfl) ..) hu) fun u _ hu => ?_
  refine Prog.Traced.bind (P := Outside) ?_ fun u _ hu => ?_
  · simp only [writeWindow]
    split_ifs
    · exact putWindow_traced _ hu
    · exact hu
  refine Prog.Traced.bind (outside_of_emits (seedSavedHook_emits rfl rfl fun _ _ _ => rfl) hu) fun u _ hu => ?_
  have hreplace := replaceListener_emits (P := fun l => l.putsBudget = false) rfl (fun _ => rfl)
    runtime live
  exact outside_of_emits hreplace hu

lemma startChecked_traced (args : StartArgs) (previous : Option Config)
    {past : List (Step World Op)} (h : unfinished past = none) :
    (startChecked args previous).Traced InSequence Outside past := by
  have hlook : ∀ {u : List (Step World Op)} (what : Look) (s : World), unfinished u = none →
      unfinished (u ++ [⟨.look what,s⟩]) = none := by
    intro u what s hu
    rw [unfinished_append]
    exact hu
  refine fun s => ⟨trivial,?_⟩
  have h₁ := hlook .machine s h
  simp only [Prog.bind]
  split
  · exact h₁
  · refine fun s₁ => ⟨trivial,fun s₂ => ⟨trivial,?_⟩⟩
    have h₂ := hlook .machine s₂ (hlook .runtime s₁ h₁)
    simp only [Prog.bind]
    split_ifs
    · exact h₂
    · split
      · split
        · exact h₂
        · exact writeBridge_traced _ _ _ _ _ _ h₂
      · exact h₂

lemma startBridge_traced (args : StartArgs) {past : List (Step World Op)}
    (h : unfinished past = none) : (startBridge args).Traced InSequence Outside past := by
  refine fun s => ⟨trivial,?_⟩
  have h₁ : unfinished (past ++ [⟨.look .config,s⟩]) = none := by
    rw [unfinished_append]
    exact h
  simp only [Prog.bind]
  split_ifs
  · refine fun s₁ => ⟨trivial,?_⟩
    have h₂ : unfinished ((past ++ [⟨.look .config,s⟩]) ++ [⟨.look .stop,s₁⟩]) = none := by
      rw [unfinished_append]
      exact h₁
    simp only [Prog.bind]
    split_ifs
    · exact h₂
    · exact startChecked_traced args _ h₂
  · exact startChecked_traced args _ h₁

lemma restore_traced (row : Option Registration) (args : StartArgs) {past : List (Step World Op)}
    (h : unfinished past = none) : (restore row args).Traced InSequence Outside past := by
  have hlook : ∀ {u : List (Step World Op)} (what : Look) (s : World), unfinished u = none →
      unfinished (u ++ [⟨.look what,s⟩]) = none := by
    intro u what s hu
    rw [unfinished_append]
    exact hu
  refine fun s => ⟨trivial,?_⟩
  have h₁ := hlook .config s h
  simp only [Prog.bind]
  split
  · refine fun s₁ => ⟨trivial,?_⟩
    have h₂ := hlook .stop s₁ h₁
    simp only [Prog.bind]
    split_ifs
    · exact h₂
    · refine fun s₂ => ⟨trivial,?_⟩
      have h₃ := hlook .machine s₂ h₂
      simp only [Prog.bind]
      split_ifs
      · exact h₃
      · refine fun s₃ => ⟨trivial,?_⟩
        have h₄ := hlook .runtime s₃ h₃
        have hwait := waitGone_emits (P := fun l => l.putsBudget = false) rfl s₃.store.keys.runtime 120
        refine Prog.Traced.bind (p := waitGone s₃.store.keys.runtime 120) (outside_of_emits hwait h₄)
          fun u gone hu => ?_
        split_ifs
        · refine fun s₄ => ⟨trivial,?_⟩
          have h₅ := hlook .machine s₄ hu
          simp only [Prog.bind]
          split_ifs
          · exact h₅
          · refine fun s₅ => ⟨trivial,?_⟩
            have h₆ := hlook .stop s₅ h₅
            simp only [Prog.bind]
            split_ifs
            · exact h₆
            · refine fun s₆ => ⟨trivial,?_⟩
              refine startBridge_traced _ ?_
              rw [unfinished_append]
              exact h₆
        · exact hu
  · exact h₁

/-- Every process writes its windows in sequence. -/
lemma code_inSequence (U : Interp) (p : Process) :
    (p.code U).Traced InSequence Outside [] := by
  have hmade : p.rights.starts = false → (p.code U).Traced InSequence Outside [] :=
    fun hs => outside_of_emits ((p.code_made U).imp (made_putsNone hs)) rfl
  cases p with
  | start args => exact Prog.Traced.bind (startBridge_traced args rfl) fun u _ hu => hu
  | restore row args => exact Prog.Traced.bind (restore_traced row args rfl) fun u _ hu => hu
  | accept peer frame => cases frame <;> exact hmade rfl
  | _ => exact hmade rfl

/-! What one access does to a window. -/

/-- An access that writes no window keeps what fits. -/
lemma fits_step {op : Op} {w : World} (h : opensWindow w op = false) {limit : Budget} :
    (Fits limit w.store.keys.remaining → Fits limit (apply op w).store.keys.remaining) ∧
    (Fits limit w.store.keys.wakeRemaining →
      Fits limit (apply op w).store.keys.wakeRemaining) := by
  obtain ⟨hremaining,hwakes⟩ : resets w op = false ∧ resetsWakes w op = false := by
    cases op with
    | key op =>
      cases op with
      | putBudget key value => cases h
      | configureDelivery mode budget => cases budget <;> first | exact ⟨rfl,rfl⟩ | cases h
      | renew turn => exact ⟨h,h⟩
      | _ => exact ⟨rfl,rfl⟩
    | _ => exact ⟨rfl,rfl⟩
  refine ⟨fun hfit => hfit.balance (balance_step hremaining),fun hfit => ?_⟩
  rcases wakes_step hwakes with heq | ⟨row,hclaim,heq⟩
  · rw [heq]
    exact hfit
  · have hmay := hclaim.mayClaim
    simp only [Wake.mayClaim,Bool.and_eq_true,decide_eq_true_eq] at hmay
    have havailable := hmay.1.2
    obtain ⟨b,hb⟩ : ∃ b, w.store.keys.wakeRemaining = some b := by
      cases limit with
      | unlimited => exact ⟨_,hfit⟩
      | count n =>
        obtain ⟨r,hr,-⟩ := hfit
        exact ⟨_,hr⟩
    have hleft : wakesLeft w.store.keys = some b := by rw [wakesLeft,hb]; rfl
    rw [heq,hleft]
    rw [hb] at hfit
    exact hfit.spend (hleft ▸ havailable)

/-- What holds of the window while the last window write of the process at work is this one. -/
def Window : Option (BudgetKey × Budget) → Meta → Prop
  | none, k => WindowCoherent k
  | some (.remaining,value), k => Fits (parseBudget value) k.remaining
  | some (.wakeRemaining,value), k =>
    Fits (parseBudget value) k.remaining ∧ Fits (parseBudget value) k.wakeRemaining
  | some (.budgetLimit,_), _ => False

/-- Accesses that write no window keep it at every stage. -/
lemma Window.kept {stage : Option (BudgetKey × Budget)} {op : Op} {w : World}
    (h : Window stage w.store.keys) (hop : opensWindow w op = false) :
    Window stage (apply op w).store.keys := by
  have hfits := fun limit => @fits_step op w hop limit
  match stage, h with
  | none, h =>
    intro limit hl
    have hlimit : (apply op w).store.keys.budgetLimit = w.store.keys.budgetLimit := by
      have hne : MetaKey.budgetLimit ∉ op.writes → MetaKey.budgetLimit.Same w.store.keys
          (apply op w).store.keys := apply_frame op w
      refine hne fun hw => ?_
      cases op with
      | key op =>
        cases op with
        | putBudget key value => cases hop
        | configureDelivery mode budget =>
          cases budget with
          | none => simp [Op.writes,KeyOp.writes] at hw
          | some b => cases hop
        | _ => simp [Op.writes,KeyOp.writes,wakeKeys] at hw
      | inbox op => cases op <;> simp [Op.writes] at hw
      | _ => simp [Op.writes] at hw
    obtain ⟨hr,hk⟩ := h limit (hlimit ▸ hl)
    exact ⟨(hfits limit).1 hr,(hfits limit).2 hk⟩
  | some (.remaining,value), h => exact (hfits _).1 h
  | some (.wakeRemaining,value), h => exact ⟨(hfits _).1 h.1,(hfits _).2 h.2⟩
  | some (.budgetLimit,value), h => exact h.elim

/-- A process at its own stage takes the window to its next one. -/
lemma Window.step {past : List (Step World Op)} {t : Step World Op} (hseq : InSequence past t)
    (h : Window (unfinished past) t.pre.store.keys) :
    Window (unfinished (past ++ [t])) t.post.store.keys := by
  rw [unfinished_append]
  cases hop : opensWindow t.pre t.label with
  | false =>
    have hstage : windowStage (unfinished past) t.label = unfinished past := by
      revert hop
      cases t.label with
      | key op => cases op <;> first | exact fun _ => rfl | (rintro ⟨⟩)
      | _ => exact fun _ => rfl
    rw [hstage]
    exact h.kept hop
  | true =>
    obtain ⟨l,w⟩ := t
    cases l with
    | key op =>
      cases op with
      | putBudget key value =>
        cases key with
        | remaining => exact fits_parseBudget value
        | wakeRemaining =>
          change unfinished past = _ at hseq
          rw [hseq] at h
          exact ⟨h,fits_parseBudget value⟩
        | budgetLimit =>
          change unfinished past = _ at hseq
          rw [hseq] at h
          rintro limit ⟨⟩
          exact h
      | renew turn =>
        obtain ⟨n,hn⟩ := Option.isSome_iff_exists.mp hop
        change unfinished past = none at hseq
        change Window (unfinished past) (renew turn w.store.keys)
        rw [hseq,renew,hn]
        -- the window that is declared opens whole
        have hlimit : w.store.keys.budgetLimit = some (.count n) ∧ 0 ≤ n := by
          simp only [renews] at hn
          split at hn
          · rename_i limit hl
            split_ifs at hn with hr
            cases hn
            exact ⟨hl,hr.1⟩
          · cases hn
        intro limit hl
        obtain rfl : .count n = limit := Option.some.inj (hlimit.1.symm.trans hl)
        have hfits : Fits (.count n) (some (.count n)) := ⟨n,rfl,hlimit.2,le_refl n⟩
        exact ⟨hfits,hfits⟩
      | configureDelivery mode budget =>
        cases budget with
        | none => cases hop
        | some b =>
          change unfinished past = none at hseq
          change Window (unfinished past) (configureDelivery mode (some b) w.store.keys)
          rw [hseq]
          rintro limit ⟨⟩
          exact ⟨fits_parseBudget b,fits_parseBudget b⟩
      | _ => cases hop
    | _ => cases hop

/-! Runs. -/

/-- The process between its window writes, after an event and the access that it makes. -/
def opener (opened : Option ℕ) (e : Event Process Op) (t : Option (Step World Op)) : Option ℕ :=
  match (t.map Step.label : Option Op) with
  | some (.key (.putBudget .budgetLimit _)) => none
  | some (.key (.putBudget ..)) => e.actor
  | _ => opened

/-- From the first to the last of its window writes a process is not ended, and no other access
writes a window. -/
def WindowsUndisturbed (B : System Process World Op) : Option ℕ → Pool World Op → Schedule → Prop
  | _, _, [] => True
  | opened, c, e::es =>
    (∀ i ∈ opened, e.crashes ≠ some i ∧
      ∀ t ∈ (B.next c e).1, opensWindow t.pre t.label = true → e.actor = some i) ∧
    WindowsUndisturbed B (opener opened e (B.next c e).1) (B.next c e).2 es

instance (B : System Process World Op) (opened : Option ℕ) (c : Pool World Op) (es : Schedule) :
    Decidable (WindowsUndisturbed B opened c es) := by
  induction es generalizing opened c with
  | nil => exact isTrue trivial
  | cons e es ih =>
    have quiet : Decidable (∀ i ∈ opened, e.crashes ≠ some i ∧
      ∀ t ∈ (B.next c e).1, opensWindow t.pre t.label = true → e.actor = some i) := inferInstance
    exact @instDecidableAnd _ _ quiet (ih _ _)

/-- Only one process is between its window writes, and the window is at its stage. -/
structure AtStage (opened : Option ℕ) (past : ℕ → List (Step World Op)) (k : Meta) : Prop where
  others : ∀ j, opened ≠ some j → unfinished (past j) = none
  window : Window (opened.bind fun i => unfinished (past i)) k

section
variable {U : Interp} {honest : Bool} {c : Pool World Op} {past : ℕ → List (Step World Op)}
  {opened : Option ℕ}

/-- An access that puts no budget leaves the stages. -/
lemma stage_kept {op : Op} {w : World} (h : op.putsBudget = false) (e : Event Process Op)
    (stage : Option (BudgetKey × Budget)) :
    opener opened e (some ⟨op,w⟩) = opened ∧ windowStage stage op = stage := by
  cases op with
  | key op =>
    cases op with
    | putBudget key value => cases h
    | _ => exact ⟨rfl,rfl⟩
  | _ => exact ⟨rfl,rfl⟩

/-- The process at work goes to its next stage. -/
lemma AtStage.own {i : ℕ} {t : Step World Op} (h : AtStage opened past t.pre.store.keys)
    (hown : ∀ j ∈ opened, j = i) (hseq : InSequence (past i) t) :
    AtStage (opener opened (.step i) (some t)) (Function.update past i (past i ++ [t]))
      t.post.store.keys := by
  have hothers : ∀ j, j ≠ i → unfinished (past j) = none :=
    fun j hj => h.others j fun he => hj (hown j he)
  have hstage : Window (unfinished (past i)) t.pre.store.keys := by
    cases opened with
    | none =>
      rw [h.others i (by simp)]
      exact h.window
    | some j =>
      obtain rfl : j = i := hown j rfl
      exact h.window
  have hnew := hstage.step hseq
  have hopener : opener opened (.step i) (some t) = some i ∨
      opener opened (.step i) (some t) = none ∧ unfinished (past i ++ [t]) = none := by
    obtain ⟨l,w⟩ := t
    rw [unfinished_append]
    cases hputs : l.putsBudget with
    | false =>
      obtain ⟨ho,hs⟩ := @stage_kept opened l w hputs (.step i) (unfinished (past i))
      rw [ho,hs]
      cases opened with
      | none => exact Or.inr ⟨rfl,h.others i (by simp)⟩
      | some j => exact Or.inl (congrArg some (hown j rfl))
    | true =>
      cases l with
      | key op =>
        cases op with
        | putBudget key value =>
          cases key with
          | budgetLimit => exact Or.inr ⟨rfl,rfl⟩
          | _ => exact Or.inl rfl
        | _ => cases hputs
      | _ => cases hputs
  rcases hopener with ho | ⟨ho,hs⟩
  · rw [ho]
    refine ⟨fun j hj => ?_,?_⟩
    · have hji : j ≠ i := fun he => hj (he ▸ rfl)
      rw [Function.update_of_ne hji]
      exact hothers j hji
    · rw [Option.bind_some,Function.update_self]
      exact hnew
  · rw [ho]
    refine ⟨fun j _ => ?_,?_⟩
    · by_cases hji : j = i
      · rw [hji,Function.update_self,hs]
      · rw [Function.update_of_ne hji]
        exact hothers j hji
    · rw [hs] at hnew
      exact hnew

lemma AtStage.next (h : AtStage opened past c.state.store.keys) {e : Event Process Op}
    (hrec : ∀ r ∈ (bridge U honest).record c past e, (bridge U honest).Explained InSequence r)
    (hquiet : ∀ i ∈ opened, e.crashes ≠ some i ∧
      ∀ t ∈ ((bridge U honest).next c e).1, opensWindow t.pre t.label = true → e.actor = some i) :
    AtStage (opener opened e ((bridge U honest).next c e).1)
      (pastOf past e ((bridge U honest).next c e).1)
      ((bridge U honest).next c e).2.state.store.keys := by
  cases e with
  | start i p =>
    have hstate : ((bridge U honest).next c (.start i p)).2.state = c.state := by
      simp only [System.next]
      split_ifs <;> rfl
    have hnone : ((bridge U honest).next c (.start i p)).1 = none := by
      simp only [System.next]
      split_ifs <;> rfl
    rw [hstate,hnone]
    exact h
  | crash i =>
    refine ⟨fun j hj => ?_,?_⟩
    · change unfinished (Function.update past i [] j) = none
      by_cases hij : j = i
      · rw [hij,Function.update_self]
        rfl
      · rw [Function.update_of_ne hij]
        exact h.others j hj
    · change Window (opened.bind fun j => unfinished (Function.update past i [] j)) _
      cases opened with
      | none => exact h.window
      | some j =>
        have hij : j ≠ i := fun he => (hquiet j rfl).1 (he ▸ rfl)
        rw [Option.bind_some,Function.update_of_ne hij]
        exact h.window
  | outside l =>
    rcases (bridge U honest).next_cases c (.outside l) with ⟨hn,hs⟩ | ⟨l',hn,hs⟩
    · rw [hn,hs]
      exact h
    · rw [hn,hs]
      have hout : l'.isOutside = true := by
        have := hrec ⟨none,[],⟨l',c.state⟩⟩ (by simp [System.record,hn,Event.actor])
        exact this
      cases l' with
      | outside m => exact h
      | _ => cases hout
  | step i =>
    rcases (bridge U honest).next_step c i with ⟨ex,l,next,-,hn⟩ | hn
    · have hseq : InSequence (past i) ⟨l,c.state⟩ := by
        have := hrec ⟨some i,past i,⟨l,c.state⟩⟩ (by simp [System.record,hn,Event.actor])
        exact this
      rw [hn] at hquiet ⊢
      by_cases hown : ∀ j ∈ opened, j = i
      · exact AtStage.own h hown hseq
      · obtain ⟨j,hj⟩ := not_forall.mp hown
        obtain ⟨rfl,hji⟩ := Classical.not_imp.mp hj
        -- another process is at work, so this access writes no window
        have hop : opensWindow c.state l = false := by
          by_contra hopens
          have := (hquiet j rfl).2 _ rfl (by simpa using hopens)
          exact hji (Option.some.inj this).symm
        have hi : unfinished (past i) = none := h.others i fun he => hji (Option.some.inj he)
        have hputs : l.putsBudget = false := by
          cases l with
          | key op => cases op <;> first | rfl | cases hop
          | _ => rfl
        obtain ⟨ho,hs⟩ := @stage_kept (some j) l c.state hputs (.step i) (unfinished (past i))
        rw [ho]
        refine ⟨fun k hk => ?_,?_⟩
        · change unfinished (Function.update past i (past i ++ [⟨l,c.state⟩]) k) = none
          by_cases hki : k = i
          · rw [hki,Function.update_self,unfinished_append,hs,hi]
          · rw [Function.update_of_ne hki]
            exact h.others k hk
        · change Window (unfinished (Function.update past i (past i ++ [⟨l,c.state⟩]) j)) _
          rw [Function.update_of_ne hji]
          exact h.window.kept hop
    · rw [hn]
      exact h

lemma AtStage.run (es : Schedule) (hk : System.Known InSequence Outside c past)
    (h : AtStage opened past c.state.store.keys)
    (hes : WindowsUndisturbed (bridge U honest) opened c es) :
    ∃ opened', AtStage opened' ((bridge U honest).pasts c past es)
      ((bridge U honest).final c es).state.store.keys := by
  induction es generalizing c past opened with
  | nil => exact ⟨opened,h⟩
  | cons e es ih =>
    obtain ⟨hk',hrec⟩ := hk.next (S := bridge U honest) (code_inSequence U) e
    exact ih hk' (h.next hrec hes.1) hes.2

end

/-- In every run of the bridge from a state with a coherent window: if every start makes its three
window writes to the end and no renewal, configuration or other start writes a window between them,
then the allowances are within the declared window whenever no process is between its window
writes. -/
theorem window_coherent (U : Interp) (honest : Bool) {w : World} (es : Schedule)
    (hw : WindowCoherent w.store.keys)
    (hes : WindowsUndisturbed (bridge U honest) none (.idle w) es)
    (hquiet : ∀ i, unfinished ((bridge U honest).pasts (.idle w) (fun _ => []) es i) = none) :
    WindowCoherent ((bridge U honest).final (.idle w) es).state.store.keys := by
  have hstart : AtStage none (fun _ => []) w.store.keys := ⟨fun _ _ => rfl,hw⟩
  obtain ⟨opened,-,hwindow⟩ := AtStage.run es (System.known_idle w) hstart hes
  cases opened with
  | none => exact hwindow
  | some i =>
    rw [Option.bind_some,hquiet i] at hwindow
    exact hwindow

/-- The owner's prompt in a turn. -/
def samplePrompt : HookPayload where
  event := .userPromptSubmit
  sessionId := sampleConfig.thread
  turn := some (str "t1")
  prompt := some (str "go on")
  transcript := some (str "/rollout")

/-- A bridge with a window of 20 is started again with an explicit zero; after `k` accesses of this
start, a hook handles a prompt of the owner. -/
def windowRun (k : ℕ) : Schedule :=
  .start 0 (.start {
    thread := sampleId.text
    ownerPid := some 7
    requested := some (.ok samplePeer)
    budget := some (.count 20)
    delivery := some .live
    socket := str "/run/own.sock" }) :: List.replicate 20 (.step 0) ++
  .start 1 (.start { thread := sampleId.text, budget := some (.count 0) }) ::
    List.replicate k (.step 1) ++
  .start 2 (.deliver samplePrompt) :: List.replicate 9 (.step 2) ++
  List.replicate (16-k) (.step 1)

/-- At the end of a schedule with three processes, the others have done nothing. -/
lemma finished_of_three {U : Interp} {honest : Bool} {w : World} {es : Schedule}
    (hes : es.all (fun e => e.actor.all (· < 3)) = true)
    (hthree : ∀ i < 3, (unfinished ((bridge U honest).pasts (.idle w) (fun _ => []) es i)).isNone) (i : ℕ) :
    unfinished ((bridge U honest).pasts (.idle w) (fun _ => []) es i) = none := by
  by_cases hi : i < 3
  · exact Option.isNone_iff_eq_none.mp (hthree i hi)
  · rw [(bridge U honest).pasts_idle (fun e he hactor => ?_) _ rfl]
    · rfl
    · have hall := List.all_eq_true.mp hes e he
      rw [hactor] at hall
      exact hi (by simpa using hall)

/-- The prompt comes after the start: the zero stays. -/
theorem window_coherent_sample : WindowCoherent
    ((bridge .ascii true).final (.idle (.new hookMachine)) (windowRun 16)).state.store.keys :=
  window_coherent .ascii true (windowRun 16) (by rintro limit ⟨⟩) (by decide +kernel)
    (finished_of_three (by decide +kernel) (by decide +kernel))

/-- The prompt comes after the first of the three window writes: the renewal gives the old window
back, and the start goes on to declare zero. -/
theorem zero_window_left_open : ¬ ∀ (U : Interp) (honest : Bool) (m : Machine) (es : Schedule),
    (∀ i, unfinished ((bridge U honest).pasts (.idle (.new m)) (fun _ => []) es i) = none) →
      WindowCoherent ((bridge U honest).final (.idle (.new m)) es).state.store.keys := by
  intro h
  have hcoherent := h .ascii true hookMachine (windowRun 8)
    (finished_of_three (by decide +kernel) (by decide +kernel))
  have hlimit : ((bridge .ascii true).final (.idle (.new hookMachine))
      (windowRun 8)).state.store.keys.budgetLimit = some (.count 0) := by decide +kernel
  have hleft : ((bridge .ascii true).final (.idle (.new hookMachine))
      (windowRun 8)).state.store.keys.remaining = some (.count 20) := by decide +kernel
  obtain ⟨⟨r,hr,-,hle⟩,-⟩ := hcoherent _ hlimit
  rw [hleft] at hr
  cases hr
  exact absurd hle (by decide)

end PeerChat
