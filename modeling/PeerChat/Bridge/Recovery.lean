import PeerChat.System.Frame
import PeerChat.System.Made
import PeerChat.Wire.RoundTrip

/-! The stop command among the steps of an automatic recovery. A recovery looks at the stop flag
before it writes, and its writes do not look again. -/
namespace PeerChat
open Python Wire Interleaving

/-- The automatic recoveries: the start that a watchdog spawns, the restoration of a resumed
session, and the listener of a kept endpoint. None of them selects a peer. -/
inductive Recovery
  | watchdog (args : StartArgs)
  | restore (row : Option Registration) (args : StartArgs)
  | endpoint

def Recovery.code (U : Interp) (pid : Pid) (passes : List Bool) : Recovery → Code Unit
  | .watchdog args =>
    withListener U pid passes (startBridge { args with recover := true, requested := none })
  | .restore row args => withListener U pid passes (PeerChat.restore row args)
  | .endpoint => serve U pid passes

/-- What a stop is about: the flag, and the supervision of a saved configuration. -/
def stopState (w : World) : Bool × Option Bool :=
  (w.store.keys.stop,w.store.keys.config.map (·.supervision))

def Stopped (w : World) : Prop := stopState w = (true,some false)

instance : DecidablePred Stopped := fun _ => inferInstanceAs (Decidable (_ = _))

/-- The access leaves the flag and the supervision alone. -/
def Steady (l : Op) : Prop := ∀ w : World, stopState (apply l w) = stopState w

/-- A stop with the configuration that it has read. -/
def Op.isStop : Op → Bool
  | .key (.stopBridge (some _)) => true
  | _ => false

/-- The check of the flag. -/
def Op.isCheck : Op → Bool
  | .look .stop => true
  | _ => false

/-- The value that the access writes to the flag. -/
def Op.flag : Op → Option Bool
  | .key (.putStop flag) => some flag
  | _ => none

/-- A write of a configuration that is supervised. -/
def Op.supervises : Op → Bool
  | .key (.putConfig config) => config.supervision
  | _ => false

/-- The writes that undo a stop. -/
def Op.undoes (l : Op) : Bool := l.supervises || l.flag = some false

/-! What the accesses do to the flag and the supervision. -/

lemma stopState_congr {w w' : World} (hs : w'.store.keys.stop = w.store.keys.stop)
    (hc : w'.store.keys.config = w.store.keys.config) : stopState w' = stopState w := by
  rw [stopState,stopState,hs,hc]

/-- What a program without setup rights does is steady. -/
lemma steady_of_made {ρ : Rights} {op : Op} (hρ : ρ.setup = false) (h : Made ρ op) : Steady op := by
  have hs : ¬ ρ.setup = true := by simp [hρ]
  intro w
  by_cases hwrites : MetaKey.stop ∈ op.writes ∨ MetaKey.config ∈ op.writes
  · cases op with
    | inbox op => cases op <;> simp [Op.writes] at hwrites
    | key op =>
      cases op with
      | putStop flag => exact absurd h hs
      | putConfig config => exact absurd h hs
      | stopBridge read => exact absurd h hs
      | enroll key record => exact absurd h hs
      | setDefaultPeer key => exact absurd h hs
      | setSupervision => exact absurd h hs
      | putBudget key value => cases key <;> simp [Op.writes,KeyOp.writes,BudgetKey.metaKey] at hwrites
      | configureDelivery mode budget =>
        cases budget <;> simp [Op.writes,KeyOp.writes,windowKeys] at hwrites
      | _ => simp [Op.writes,KeyOp.writes,wakeKeys] at hwrites
    | _ => simp [Op.writes] at hwrites
  · obtain ⟨hstop,hconfig⟩ := not_or.mp hwrites
    exact stopState_congr (apply_frame op w hstop) (apply_frame op w hconfig)

lemma stopState_flag {op : Op} {flag : Bool} (h : op.flag = some flag) (w : World) :
    stopState (apply op w) = (flag,(stopState w).2) := by
  cases op with
  | key op =>
    cases op with
    | putStop flag' =>
      cases h
      rfl
    | _ => cases h
  | _ => cases h

lemma stopState_supervises {op : Op} (h : op.supervises = true) (w : World) :
    stopState (apply op w) = ((stopState w).1,some true) := by
  cases op with
  | key op =>
    cases op with
    | putConfig c =>
      have hc : c.supervision = true := h
      change (_,some c.supervision) = _
      rw [hc]
      rfl
    | _ => cases h
  | _ => cases h

/-- A stop stops a bridge with a saved configuration. -/
lemma stopState_stop {op : Op} (h : op.isStop = true) {w : World}
    (hconfig : (stopState w).2.isSome = true) : stopState (apply op w) = (true,some false) := by
  cases op with
  | key op =>
    cases op with
    | stopBridge read =>
      cases read with
      | none => cases h
      | some c =>
        simp only [stopState,Option.isSome_map] at hconfig
        obtain ⟨k,hk⟩ := Option.isSome_iff_exists.mp hconfig
        simp [stopState,KeyOp.apply,stopBridge,hk]
    | _ => cases h
  | _ => cases h

lemma flag_of_not_undoes {op : Op} {flag : Bool} (h : op.undoes = false)
    (hf : op.flag = some flag) : flag = true := by
  cases flag
  · simp [Op.undoes,hf] at h
  · rfl

/-! Careful programs. -/

/-- The accesses of a recovery: it never turns the supervision off. -/
def Recovers (l : Op) : Prop := Steady l ∨ (∃ flag, l.flag = some flag) ∨ l.supervises = true

/-- The program undoes a stop only after its last check has found none, and does not set the flag
again once it has cleared it. -/
def Careful {α : Type} : Bool → Bool → Code α → Prop
  | _, _, .ret _ => True
  | checked, cleared, .act l next => Recovers l ∧ (l.undoes = true → checked = true) ∧
      (cleared = true → l.flag ≠ some true) ∧
      ∀ w, Careful (if l.isCheck then ¬ w.store.keys.stop else checked)
        (cleared || l.flag = some false) (next w)

/-- The foreign steps: stops, and what does not concern them. -/
abbrev StopOrSteady (l : Op) : Prop := l.isStop = true ∨ Steady l

section
variable {α : Type} {p q : Code α} {w w' : World} {t : List (Entry World Op)}

/-- Without a check of its own a program is as unchecked as it was. -/
lemma careful_unchecked {F : Op → Prop} (h : Exec F p w t q w') {cleared : Bool}
    (hp : Careful false cleared p) (hno : ∀ e ∈ t, e.own = true → e.step.label.isCheck = false) :
    ∃ cleared', Careful false cleared' q := by
  induction h generalizing cleared with
  | refl => exact ⟨_,hp⟩
  | foreign _ _ ih => exact ih hp fun e he => hno e (List.mem_cons_of_mem _ he)
  | @own l next w t q w' _ ih =>
    have hnext := hp.2.2.2 w
    rw [if_neg (by rw [hno _ (List.mem_cons_self ..) rfl]; simp)] at hnext
    exact ih hnext fun e he => hno e (List.mem_cons_of_mem _ he)

lemma careful_after {F : Op → Prop} (h : Exec F p w t q w') {checked cleared : Bool}
    (hp : Careful checked cleared p) : ∃ checked' cleared', Careful checked' cleared' q := by
  induction h generalizing checked cleared with
  | refl => exact ⟨_,_,hp⟩
  | foreign _ _ ih => exact ih hp
  | own _ ih => exact ih (hp.2.2.2 _)

/-- A configuration stays saved. -/
lemma config_kept (h : Exec StopOrSteady p w t q w') {checked cleared : Bool}
    (hp : Careful checked cleared p) (hw : (stopState w).2.isSome = true) :
    (stopState w').2.isSome = true := by
  induction h generalizing checked cleared with
  | refl => exact hw
  | foreign hl _ ih =>
    refine ih hp ?_
    rcases hl with hl | hl
    · rw [stopState_stop hl hw]
      rfl
    · rwa [hl]
  | @own l next w t q w' _ ih =>
    refine ih (hp.2.2.2 w) ?_
    rcases hp.1 with hl | ⟨flag,hl⟩ | hl
    · rwa [hl]
    · rwa [stopState_flag hl]
    · rw [stopState_supervises hl]
      rfl

/-- A program that finds the flag set undoes nothing. -/
lemma undoes_nothing (h : Exec Steady p w t q w') {cleared : Bool} (hp : Careful false cleared p)
    (hw : w.store.keys.stop = true) : ∀ e ∈ t, e.own = true → e.step.label.undoes = false := by
  induction h generalizing cleared with
  | refl => simp
  | @foreign p l w t q w' hl _ ih =>
    intro e he hown
    rcases List.mem_cons.mp he with rfl | he
    · cases hown
    · exact ih hp ((congrArg Prod.fst (hl w)).trans hw) e he hown
  | @own l next w t q w' _ ih =>
    have hund : l.undoes = false := by
      by_contra hu
      have := hp.2.1 (by simpa using hu)
      cases this
    have hstop : (apply l w).store.keys.stop = true := by
      rcases hp.1 with hl | ⟨flag,hl⟩ | hl
      · exact (congrArg Prod.fst (hl w)).trans hw
      · have hset := flag_of_not_undoes hund hl
        exact (congrArg Prod.fst (stopState_flag hl w)).trans hset
      · simp [Op.undoes,hl] at hund
    have hnext := hp.2.2.2 w
    have hcheck : (if l.isCheck then decide (¬ w.store.keys.stop = true) else false) = false := by
      simp [hw]
    rw [hcheck] at hnext
    intro e he hown
    rcases List.mem_cons.mp he with rfl | he
    · exact hund
    · exact ih hnext hstop e he hown

/-- Without an undoing write a stop lasts. -/
lemma stop_lasts (h : Exec Steady p w t q w') {checked cleared : Bool}
    (hp : Careful checked cleared p) (hw : Stopped w)
    (hno : ∀ e ∈ t, e.own = true → e.step.label.undoes = false) : Stopped w' := by
  induction h generalizing checked cleared with
  | refl => exact hw
  | @foreign p l w t q w' hl _ ih =>
    exact ih hp ((hl w).trans hw) fun e he => hno e (List.mem_cons_of_mem _ he)
  | @own l next w t q w' _ ih =>
    have hund : l.undoes = false := hno _ (List.mem_cons_self ..) rfl
    refine ih (hp.2.2.2 w) ?_ fun e he => hno e (List.mem_cons_of_mem _ he)
    rcases hp.1 with hl | ⟨flag,hl⟩ | hl
    · exact (hl w).trans hw
    · have hset := flag_of_not_undoes hund hl
      rw [Stopped,stopState_flag hl,hw,hset]
    · simp [Op.undoes,hl] at hund

/-- What a program has undone stays undone. -/
lemma undone_lasts (h : Exec Steady p w t q w') {checked cleared : Bool}
    (hp : Careful checked cleared p) :
    ((stopState w).2 = some true → (stopState w').2 = some true) ∧
    (cleared = true → (stopState w).1 = false → (stopState w').1 = false) := by
  induction h generalizing checked cleared with
  | refl => exact ⟨id,fun _ => id⟩
  | @foreign p l w t q w' hl _ ih =>
    have hi := ih hp
    rwa [hl w] at hi
  | @own l next w t q w' _ ih =>
    obtain ⟨h1,h2⟩ := ih (hp.2.2.2 w)
    rcases hp.1 with hl | ⟨flag,hl⟩ | hl
    · rw [hl w] at h1 h2
      exact ⟨h1,fun hc => h2 (by simp [hc])⟩
    · rw [stopState_flag hl] at h1 h2
      refine ⟨h1,fun hc _ => h2 (by simp [hc]) ?_⟩
      have hne := hp.2.2.1 hc
      rw [hl] at hne
      simpa using hne
    · rw [stopState_supervises hl] at h1 h2
      exact ⟨fun _ => h1 rfl,fun hc => h2 (by simp [hc])⟩

/-- An undoing write undoes the stop for good. -/
lemma undone_of_undoes (h : Exec Steady p w t q w') {checked cleared : Bool}
    (hp : Careful checked cleared p)
    (hund : ∃ e ∈ t, e.own = true ∧ e.step.label.undoes = true) : ¬ Stopped w' := by
  induction h generalizing checked cleared with
  | refl => simp at hund
  | @foreign p l w t q w' hl _ ih =>
    obtain ⟨e,he,hown,hu⟩ := hund
    rcases List.mem_cons.mp he with rfl | he
    · cases hown
    · exact ih hp ⟨e,he,hown,hu⟩
  | @own l next w t q w' hrest ih =>
    obtain ⟨e,he,hown,hu⟩ := hund
    rcases List.mem_cons.mp he with rfl | he
    · obtain ⟨h1,h2⟩ := undone_lasts hrest (hp.2.2.2 w)
      simp only [Op.undoes,Bool.or_eq_true,decide_eq_true_eq] at hu
      rcases hu with hu | hu
      · rw [stopState_supervises hu] at h1
        intro hs
        rw [Stopped] at hs
        rw [hs] at h1
        cases h1 rfl
      · rw [stopState_flag hu] at h2
        intro hs
        rw [Stopped] at hs
        rw [hs] at h2
        cases h2 (by simp [hu]) rfl
    · exact ih (hp.2.2.2 w) ⟨e,he,hown,hu⟩

end

/-! The recoveries are careful. -/

section
variable {α β : Type} {checked cleared : Bool}

lemma Careful.weaken {p : Code α} {checked' cleared' : Bool} (h : Careful checked cleared p)
    (hc : checked = true → checked' = true) (hd : cleared' = true → cleared = true) :
    Careful checked' cleared' p := by
  induction p generalizing checked cleared checked' cleared' with
  | ret a => trivial
  | act l next ih =>
    refine ⟨h.1,fun hu => hc (h.2.1 hu),fun hcl => h.2.2.1 (hd hcl),fun w => ?_⟩
    refine ih w (h.2.2.2 w) ?_ ?_
    · split_ifs
      · exact id
      · exact hc
    · simp only [Bool.or_eq_true]
      exact Or.imp_left hd

/-- A listener may follow: it checks the flag itself, and only clears it. -/
lemma Careful.bind {p : Code α} {f : α → Code β} (hp : Careful checked cleared p)
    (hf : ∀ a, Careful false true (f a)) : Careful checked cleared (p >>= f) := by
  induction p generalizing checked cleared with
  | ret a => exact (hf a).weaken (by rintro ⟨⟩) fun _ => rfl
  | act l next ih => exact ⟨hp.1,hp.2.1,hp.2.2.1,fun w => ih w (hp.2.2.2 w)⟩

/-- An access that neither checks nor sets the flag. -/
structure Plain (l : Op) : Prop where
  writes : Steady l ∨ l.supervises = true
  check : l.isCheck = false
  flag : l.flag = none

lemma plain_of_made {ρ : Rights} {l : Op} (hs : ρ.setup = false) (hc : ρ.checks = false)
    (h : Made ρ l) : Plain l := by
  have hs' : ¬ ρ.setup = true := by simp [hs]
  have hc' : ¬ ρ.checks = true := by simp [hc]
  refine ⟨Or.inl (steady_of_made hs h),?_,?_⟩
  · cases l with
    | look what => cases what <;> first | rfl | exact absurd h hc'
    | _ => rfl
  · cases l with
    | key op => cases op <;> first | rfl | exact absurd h hs'
    | _ => rfl

lemma Careful.plain_act {l : Op} {next : World → Code α} (hl : Plain l)
    (h : ∀ w, Careful true cleared (next w)) : Careful true cleared (.act l next) := by
  obtain ⟨hw,hcheck,hflag⟩ := hl
  refine ⟨hw.imp_right Or.inr,fun _ => rfl,fun _ => by simp [hflag],fun w => ?_⟩
  simp only [hcheck,hflag,Bool.false_eq_true,if_false,reduceCtorEq,decide_false,Bool.or_false]
  exact h w

lemma Careful.look_act {what : Look} {next : World → Code α} (hw : what ≠ .stop)
    (h : ∀ w, Careful checked cleared (next w)) : Careful checked cleared (.act (.look what) next) := by
  refine ⟨Or.inl fun _ => rfl,by rintro ⟨⟩,fun _ => by rintro ⟨⟩,fun w => ?_⟩
  have hcheck : (Op.look what).isCheck = false := by cases what <;> first | rfl | exact absurd rfl hw
  simp only [hcheck,Op.flag,Bool.false_eq_true,if_false,reduceCtorEq,decide_false,Bool.or_false]
  exact h w

/-- A check that finds the flag set leaves the program unchecked. -/
lemma Careful.check_act {next : World → Code α}
    (hset : ∀ w, w.store.keys.stop = true → Careful false cleared (next w))
    (hclear : ∀ w, ¬ w.store.keys.stop = true → Careful true cleared (next w)) :
    Careful checked cleared (.act (.look .stop) next) := by
  refine ⟨Or.inl fun _ => rfl,by rintro ⟨⟩,fun _ => by rintro ⟨⟩,fun w => ?_⟩
  simp only [Op.isCheck,Op.flag,if_true,reduceCtorEq,decide_false,Bool.or_false]
  by_cases hw : w.store.keys.stop = true
  · simpa [hw] using hset w hw
  · simpa [hw] using hclear w hw

/-- After a check that has found no stop, plain accesses may come first. -/
lemma Careful.after_plain {p : Code α} {f : α → Code β} (hp : p.Emits Plain)
    (hf : ∀ a, Careful true cleared (f a)) : Careful true cleared (p >>= f) := by
  induction p with
  | ret a => exact hf a
  | act l next ih => exact .plain_act hp.1 fun w => ih w (hp.2 w)

/-- A program without setup rights undoes nothing. -/
lemma Careful.of_made {ρ : Rights} {p : Code α} (hs : ρ.setup = false) (h : p.Emits (Made ρ)) :
    Careful checked cleared p := by
  have hs' : ¬ ρ.setup = true := by simp [hs]
  induction p generalizing checked cleared with
  | ret a => trivial
  | act l next ih =>
    have hflag : l.flag = none := by
      cases l with
      | key op => cases op <;> first | rfl | exact absurd h.1 hs'
      | _ => rfl
    have hsup : l.supervises = false := by
      cases l with
      | key op => cases op <;> first | rfl | exact absurd h.1 hs'
      | _ => rfl
    refine ⟨Or.inl (steady_of_made hs h.1),fun hu => ?_,fun _ => by simp [hflag],
      fun w => ih w (h.2 w)⟩
    simp [Op.undoes,hsup,hflag] at hu

end

lemma startup_careful (U : Interp) (pid : Pid) (config : Config) (passes : List Bool) :
    Careful true true (do
      startup pid config
      worker U passes
      emit (.key (.putRuntime none))) := by
  have hrest : Careful true true (do
      worker U passes
      emit (.key (.putRuntime none))) :=
    Careful.of_made (ρ := { listener := true, checks := true }) rfl
      ((worker_made rfl rfl U passes).bind fun _ => emit_made trivial)
  have hplain : ∀ op, Made { listener := true } op → Plain op := fun _ => plain_of_made rfl rfl
  refine .plain_act (hplain _ rfl) fun _ => ?_
  refine ⟨Or.inr (Or.inl ⟨false,rfl⟩),fun _ => rfl,(by rintro _ ⟨⟩),fun w => ?_⟩
  exact .plain_act (hplain _ trivial) fun _ => .plain_act (hplain _ trivial) fun _ => hrest

lemma serve_careful (U : Interp) (pid : Pid) (passes : List Bool) :
    Careful false true (serve U pid passes) := by
  refine .look_act (by rintro ⟨⟩) fun w => .check_act (fun w₁ hw₁ => ?_) fun w₁ hw₁ => ?_
  · simp only [Prog.bind,if_pos hw₁]
    trivial
  · simp only [Prog.bind,if_neg hw₁]
    cases w.store.keys.config with
    | none => trivial
    | some config => exact startup_careful U pid config passes

/-! A start without a selected peer, after a check that has found no stop. -/

lemma checkRequested_none {m : Machine} {args : StartArgs} {previous : Option Config}
    {r : Option (Str × PeerRecord)} (hargs : args.requested = none)
    (h : checkRequested m args previous = .ok r) : r = none := by
  simp only [checkRequested,hargs] at h
  split at h
  · split_ifs at h
    cases h
    rfl
  · cases h

lemma startConfig_supervision (m : Machine) (args : StartArgs) (previous : Option Config)
    (owner : Pid) (identity executable : Str) :
    (startConfig m args previous owner identity executable).supervision = true := by
  cases previous <;> rfl

lemma emits_plain {α : Type} {p : Code α} (h : p.Emits (Made { starts := true })) :
    p.Emits Plain := h.imp fun _ => plain_of_made rfl rfl

lemma plain_putConfig {c : Config} (h : c.supervision = true) : Plain (.key (.putConfig c)) :=
  ⟨Or.inr h,rfl,rfl⟩

lemma writePeers_plain {config : Config} (h : config.supervision = true) :
    (writePeers none config).Emits Plain := by
  have hlook : Plain (.look .machine) := plain_of_made (ρ := {}) rfl rfl trivial
  refine ⟨hlook,fun w => ⟨plain_putConfig h,fun _ => ?_⟩⟩
  simp only [Prog.bind,Prog.pure_eq]
  split_ifs
  · trivial
  · exact ⟨hlook,fun _ => ⟨plain_putConfig h,fun _ => trivial⟩⟩

lemma replaceListener_careful (runtime : Option Runtime) (live : Bool) :
    Careful true false (replaceListener runtime live) := by
  have hclear : Careful true false (.act (.key (.putStop false)) fun _ => .ret true) :=
    ⟨Or.inr (Or.inl ⟨false,rfl⟩),fun _ => rfl,(by rintro _ ⟨⟩),fun _ => trivial⟩
  simp only [replaceListener]
  split_ifs
  · trivial
  · refine ⟨Or.inr (Or.inl ⟨true,rfl⟩),fun _ => rfl,by rintro ⟨⟩,fun _ => ?_⟩
    refine Careful.after_plain (p := waitGone runtime 120) (emits_plain (waitGone_emits trivial ..)) fun gone => ?_
    split_ifs
    · exact hclear
    · trivial
  · exact hclear

lemma writeBridge_careful (args : StartArgs) (previous : Option Config) {config : Config}
    (h : config.supervision = true) (runtime : Option Runtime) (live : Bool) :
    Careful true false (writeBridge args previous none config runtime live) := by
  refine .after_plain (emits_plain (writeOwner_emits trivial (fun _ => rfl) ..)) fun _ =>
    .plain_act (plain_putConfig h) fun _ => ?_
  refine Careful.after_plain (p := writePeers none config) (writePeers_plain h) fun _ => ?_
  refine .after_plain (emits_plain (writeMode_emits (fun _ => rfl) ..)) fun _ => ?_
  refine .after_plain (emits_plain (writeWindow_emits (fun _ _ => rfl) ..)) fun _ => ?_
  refine .after_plain (emits_plain (seedSavedHook_emits trivial trivial fun _ _ hl => ⟨rfl,hl⟩))
    fun _ => ?_
  exact replaceListener_careful runtime live

lemma startChecked_careful {args : StartArgs} (hargs : args.requested = none)
    (previous : Option Config) : Careful true false (startChecked args previous) := by
  refine .look_act (by rintro ⟨⟩) fun w => ?_
  simp only [Prog.bind]
  split
  · trivial
  · refine .look_act (by rintro ⟨⟩) fun w₁ => .look_act (by rintro ⟨⟩) fun w₂ => ?_
    simp only [Prog.bind]
    split_ifs
    · trivial
    · split
      · rename_i requested executable hreq _
        split
        · trivial
        · rw [checkRequested_none hargs hreq]
          exact writeBridge_careful _ _ (startConfig_supervision ..) _ _
      · trivial

/-- A watchdog's start checks the flag before it writes. -/
lemma watchdog_careful {args : StartArgs} (hargs : args.requested = none)
    (hrecover : args.recover = true) : Careful false false (startBridge args) := by
  refine .look_act (by rintro ⟨⟩) fun w => ?_
  simp only [Prog.bind,hrecover,if_true]
  refine .check_act (fun w₁ hw₁ => ?_) fun w₁ _ => ?_
  · simp only [Prog.bind,if_pos (Or.inl hw₁)]
    trivial
  · simp only [Prog.bind]
    split_ifs
    · trivial
    · exact startChecked_careful hargs _

/-- A restoration checks the flag, and once more before its start. -/
lemma restore_careful (row : Option Registration) (args : StartArgs) :
    Careful false false (PeerChat.restore row args) := by
  refine .look_act (by rintro ⟨⟩) fun w => ?_
  simp only [Prog.bind]
  split
  · refine .check_act (fun w₁ hw₁ => ?_) fun w₁ hw₁ => ?_
    · simp only [Prog.bind,if_pos hw₁]
      trivial
    · simp only [Prog.bind,if_neg hw₁]
      refine .look_act (by rintro ⟨⟩) fun w₂ => ?_
      simp only [Prog.bind]
      split_ifs
      · trivial
      · refine .look_act (by rintro ⟨⟩) fun w₃ => ?_
        refine Careful.after_plain (p := waitGone _ 120) (emits_plain (waitGone_emits trivial ..)) fun gone => ?_
        split_ifs
        · refine .look_act (by rintro ⟨⟩) fun w₄ => ?_
          simp only [Prog.bind]
          split_ifs
          · trivial
          · refine .check_act (fun w₅ hw₅ => ?_) fun w₅ hw₅ => ?_
            · simp only [Prog.bind,if_pos hw₅]
              trivial
            · simp only [Prog.bind,if_neg hw₅]
              have hdrop : Plain (.key .nullWake) := plain_of_made (ρ := { starts := true }) rfl rfl rfl
              exact .plain_act hdrop fun _ => .look_act (by rintro ⟨⟩) fun w₆ => startChecked_careful rfl _
        · trivial
  · trivial

lemma withListener_careful {start : Code Bool} (h : Careful false false start) (U : Interp)
    (pid : Pid) (passes : List Bool) : Careful false false (withListener U pid passes start) := by
  refine h.bind fun spawned => ?_
  split_ifs
  · exact serve_careful ..
  · trivial

lemma Recovery.code_careful (U : Interp) (pid : Pid) (passes : List Bool) (r : Recovery) :
    Careful false false (r.code U pid passes) := by
  cases r with
  | watchdog args => exact withListener_careful (watchdog_careful rfl rfl) ..
  | restore row args => exact withListener_careful (restore_careful row args) ..
  | endpoint => exact (serve_careful ..).weaken id (by rintro ⟨⟩)

/-- The stop falls between a check of the flag by the recovery and a write of the recovery that
undoes it; `a` and `b` are the steps before and after the stop. -/
def InWindow (a b : List (Entry World Op)) : Prop :=
  (∃ e ∈ a, e.own = true ∧ e.step.label.isCheck = true) ∧
    ∃ e ∈ b, e.own = true ∧ e.step.label.undoes = true

instance (a b : List (Entry World Op)) : Decidable (InWindow a b) :=
  inferInstanceAs (Decidable (_ ∧ _))

/-- In every execution of an automatic recovery, to its end or to a crash, in which a stop commits
and only steady steps of others follow it: the bridge ends stopped and without supervision, exactly
if the stop does not fall between a check of the flag and a write that undoes it. -/
theorem stop_wins_iff {U : Interp} {pid : Pid} {passes : List Bool} {r : Recovery}
    {w w' : World} {a b : List (Entry World Op)} {op : Op} {s : World} {q : Code Unit}
    (h : Exec StopOrSteady (r.code U pid passes) w (a ++ ⟨false,⟨op,s⟩⟩ :: b) q w')
    (hstop : op.isStop = true) (hsteady : ∀ e ∈ b, e.own = false → Steady e.step.label)
    (hconfig : w.store.keys.config.isSome = true) : Stopped w' ↔ ¬ InWindow a b := by
  have hcareful := Recovery.code_careful U pid passes r
  obtain ⟨p₁,s₁,ha,hb⟩ := h.split
  cases hb with
  | foreign hl hb =>
    have hb := hb.narrow hsteady
    obtain ⟨checked,cleared,hp⟩ := careful_after ha hcareful
    have hw : Stopped (apply op s) :=
      stopState_stop hstop (config_kept ha hcareful (by simpa [stopState] using hconfig))
    constructor
    · rintro hend ⟨-,hund⟩
      exact undone_of_undoes hb hp hund hend
    · intro hwin
      by_cases hund : ∃ e ∈ b, e.own = true ∧ e.step.label.undoes = true
      · -- no check has come before the stop, and the next one finds it
        have hno : ∀ e ∈ a, e.own = true → e.step.label.isCheck = false := by
          intro e he hown
          by_contra hc
          exact hwin ⟨⟨e,he,hown,by simpa using hc⟩,hund⟩
        obtain ⟨cleared',hp'⟩ := careful_unchecked ha hcareful hno
        exact stop_lasts hb hp' hw (undoes_nothing hb hp' (congrArg Prod.fst hw))
      · refine stop_lasts hb hp hw fun e he hown => ?_
        by_contra hu
        exact hund ⟨e,he,hown,by simpa using hu⟩

/-! A watchdog's recovery of a supervised bridge, with a stop after `k` of its accesses. -/

def supervisedConfig : Config := { sampleConfig with supervision := true }

def supervised : World := after (World.new sampleMachine) [Op.key (.putConfig supervisedConfig)]

def sampleStop : Op := .key (.stopBridge (some supervisedConfig))

def watchdog : Code Unit :=
  Recovery.code .ascii 50 [] (.watchdog { thread := sampleConfig.thread })

def untilStop (k : ℕ) : List (Entry World Op) × Code Unit × World :=
  interleave watchdog supervised (List.replicate k none)

def fromStop (k : ℕ) : List (Entry World Op) × Code Unit × World :=
  interleave (untilStop k).2.1 (apply sampleStop (untilStop k).2.2) (List.replicate 40 none)

lemma watchdog_exec (k : ℕ) : Exec StopOrSteady watchdog supervised
    ((untilStop k).1 ++ ⟨false,⟨sampleStop,(untilStop k).2.2⟩⟩ :: (fromStop k).1)
    (fromStop k).2.1 (fromStop k).2.2 :=
  (interleave_exec _ (by simp) _ _).append (.foreign (Or.inl rfl) (interleave_exec _ (by simp) _ _))

lemma fromStop_own (k : ℕ) : ∀ e ∈ (fromStop k).1, e.own = false → Steady e.step.label := by
  intro e he hown
  rw [interleave_own 40 _ _ e he] at hown
  cases hown

/-- A stop before the recovery's check wins. -/
theorem early_stop_wins : Stopped (fromStop 1).2.2 :=
  (stop_wins_iff (watchdog_exec 1) rfl (fromStop_own 1) rfl).mpr (by decide +kernel)

/-- A stop right after the check is undone. -/
theorem late_stop_undone :
    ¬ ∀ (U : Interp) (pid : Pid) (passes : List Bool) (r : Recovery) (w w' : World)
      (a b : List (Entry World Op)) (op : Op) (s : World),
      Exec StopOrSteady (r.code U pid passes) w (a ++ ⟨false,⟨op,s⟩⟩ :: b) (.ret ()) w' →
      op.isStop = true → (∀ e ∈ b, e.own = false → Steady e.step.label) →
      w.store.keys.config.isSome = true → Stopped w' := by
  intro h
  have hrun := watchdog_exec 2
  have hdone : (fromStop 2).2.1.isDone = true := by decide +kernel
  cases hp : (fromStop 2).2.1 with
  | act l next =>
    rw [hp] at hdone
    cases hdone
  | ret a =>
    rw [hp] at hrun
    have hstopped := h _ _ _ _ _ _ _ _ _ _ hrun rfl (fromStop_own 2) rfl
    revert hstopped
    decide +kernel

end PeerChat
