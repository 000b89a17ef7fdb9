import PeerChat.Hooks.Evidence
import PeerChat.Interleaving.Beside
import PeerChat.Programs.Start

/-! A hook beside the connection that carries an earlier hook's record into the inbox. The hook writes
the saved record, its record in the inbox and the phase at three points; the connection reads the
saved record outside the transaction in which it compares and writes. -/
namespace PeerChat
open Python Wire Interleaving

/-- The accesses to the inbox, and the replacement of the saved record. -/
inductive SavingOp
  | op (o : Op)
  | saveHook (record : SavedHook)

def World.saveHook (record : SavedHook) (w : World) : World :=
  { w with machine := { w.machine with
      savedHook := Function.update w.machine.savedHook record.thread (some record) } }

def SavingOp.apply : SavingOp → World → World
  | .op o, w => o.apply w
  | .saveHook record, w => w.saveHook record

instance : Acts SavingOp World := ⟨SavingOp.apply⟩

/-- The record that `remember_hook` saves, where the routing check lets the hook through. -/
def savedRecord (m : Machine) (payload : HookPayload) (home : Str) (registration : Registration) :
    Option SavedHook :=
  if payload.event.lifecycle ∧ routingRejection m payload {
      thread := payload.sessionId
      socket := []
      codexHome := home
      ownerPid := registration.ownerPid
      ownerIdentity := registration.ownerIdentity } true = none then
    some {
      thread := payload.sessionId
      ownerPid := registration.ownerPid
      ownerIdentity := registration.ownerIdentity
      codexHome := home
      time := m.now
      event := payload.event
      turn := payload.turn
      matched := true
      transcript := payload.transcript }
  else none

/-- `remember_hook(payload, registration, state_root)`. -/
def rememberHook (payload : HookPayload) (home : Str) :
    Option Registration → Prog World SavingOp Unit
  | none => .ret ()
  | some registration => .act (.op (.look .machine)) fun w =>
    match savedRecord w.machine payload home registration with
    | none => .ret ()
    | some record => .act (.saveHook record) fun _ => .ret ()

/-- `deliver` after the registration. -/
def deliverRegistered (payload : HookPayload) (registration : Option Registration) :
    Code (Except Exc (Option Str)) := do
  let config ← read .config (·.store.keys.config)
  match config with
  | none => return .ok none
  | some config =>
    let m ← read .machine (·.machine)
    match routingRejection m payload config true with
    | none => do
      emit (.key (.putHookSeen (seenRecord m payload config registration .matched)))
      deliverRouted config payload
    | some reason => do
      emit (.key (.putHookRejected
        (seenRecord m payload config registration (.rejected reason))))
      if registration.isSome ∧ payload.event = .sessionStart ∧ reason = str "missing thread" then
        deliverRouted config payload
      else return .ok none

/-- The hook with the write of its saved record. -/
def deliverSaving (payload : HookPayload) : Prog World SavingOp (Except Exc (Option Str)) :=
  if ¬ payload.event.lifecycle ∨ ¬ validId payload.sessionId then .ret (.ok none)
  else .act (.op (.look .machine)) fun w =>
    rememberHook payload w.machine.commandHome (register w.machine payload) >>= fun _ =>
      (deliverRegistered payload (register w.machine payload)).relabel .op

/-- `seed_lifecycle(store, state_root)`. -/
def seeding : Prog World SavingOp Unit := seedSavedHook.relabel .op

/-! What the hook does. -/

def SavingOp.putsSeen : SavingOp → Option HookSeen
  | .op (.key (.putHookSeen seen)) => some seen
  | _ => none

def SavingOp.putsPhase : SavingOp → Option Phase
  | .op (.key (.putPhase phase)) => some phase
  | _ => none

/-- The access leaves the phase and the record of the last hook, and the machine. -/
def Op.leaves (l : Op) : Bool := l.leavesEvidence && !l.isOutside

def SavingOp.leaves : SavingOp → Bool
  | .op l => l.leaves
  | .saveHook _ => true

/-- The saved record and the one in the inbox have times that the hook has read before; it writes the
former, then the latter, and then only the phase of its event. -/
def Hooking (payload : HookPayload) (past : List (Step World SavingOp)) (t : Step World SavingOp) :
    Prop :=
  match t.label with
  | .saveHook record => (∃ st ∈ past, record.time = st.pre.machine.now) ∧
      ∀ st ∈ past, st.label.leaves = true
  | .op (.key (.putHookSeen seen)) => seen.routing = .matched ∧
      (∃ u st, past = u ++ [st] ∧ seen.time = st.pre.machine.now) ∧
      ∀ st ∈ past, st.label.leaves = true
  | .op (.key (.putPhase phase)) => phase = eventPhase payload.event
  | .op l => l.leaves = true

/-- A hook that ends has set the phase if it has recorded itself. -/
def Hooked {α : Type} (past : List (Step World SavingOp)) (_ : α) : Prop :=
  (∃ st ∈ past, st.label.putsSeen.isSome = true) → ∃ st ∈ past, st.label.putsPhase.isSome = true

lemma Hooking.of_leaves {payload : HookPayload} {l : Op} (h : l.leaves = true)
    (past : List (Step World SavingOp)) (w : World) : Hooking payload past ⟨.op l,w⟩ := by
  cases l with
  | key op => cases op <;> first | exact h | cases h
  | _ => exact h

lemma leaves_puts {l : SavingOp} (h : l.leaves = true) : l.putsSeen = none ∧ l.putsPhase = none := by
  cases l with
  | saveHook record => exact ⟨rfl,rfl⟩
  | op l =>
    cases l with
    | key op => cases op <;> first | exact ⟨rfl,rfl⟩ | cases h
    | _ => exact ⟨rfl,rfl⟩

/-- Nothing but reads and the saved record so far. -/
def Fresh (past : List (Step World SavingOp)) : Prop := ∀ st ∈ past, st.label.leaves = true

lemma Fresh.snoc {past : List (Step World SavingOp)} (h : Fresh past) {t : Step World SavingOp}
    (ht : t.label.leaves = true) : Fresh (past ++ [t]) := by
  intro st hst
  rcases List.mem_append.mp hst with hst | hst
  · exact h st hst
  · rw [List.mem_singleton.mp hst]
    exact ht

lemma Fresh.hooked {α : Type} {past : List (Step World SavingOp)} (h : Fresh past) (a : α) :
    Hooked past a := by
  intro hsome
  obtain ⟨st,hst,hseen⟩ := hsome
  rw [(leaves_puts (h st hst)).1] at hseen
  cases hseen

/-- A part of the hook that leaves the phase and the record. -/
lemma leaving_traced {α : Type} {payload : HookPayload} {p : Code α}
    (hp : p.Emits fun l => l.leaves = true) (past : List (Step World SavingOp)) :
    (p.relabel .op).Traced (Hooking payload) (fun u _ => past <+: u) past := by
  have hemits : (p.relabel SavingOp.op).Emits fun l => ∃ o, l = SavingOp.op o ∧ o.leaves = true :=
    Prog.Emits.relabel (hp.imp fun l hl => ⟨l,rfl,hl⟩)
  refine Prog.Traced.of_emits (K := fun u => past <+: u) hemits ?_ (List.prefix_refl _)
  intro u l s hu hl
  obtain ⟨o,rfl,ho⟩ := hl
  exact ⟨.of_leaves ho u s,hu.trans (List.prefix_append ..)⟩

lemma deliverRouted_hooking (config : Config) (payload : HookPayload)
    (past : List (Step World SavingOp)) : ((deliverRouted config payload).relabel .op).Traced
      (Hooking payload) (fun u _ => ∃ st ∈ u, st.label.putsPhase.isSome = true) past := by
  have hrenew : (renewWindow payload).Emits fun l => l.leaves = true :=
    renewWindow_emits (fun _ => rfl) payload
  have hdecide : (decideWake payload).Emits fun l => l.leaves = true := decideWake_emits rfl
  have hhand : (handOver config).Emits fun l => l.leaves = true := handOver_emits rfl fun _ => rfl
  unfold deliverRouted
  rw [Prog.relabel_bind]
  refine Prog.Traced.bind (leaving_traced hrenew past) fun u _ _ => ?_
  intro w
  refine ⟨rfl,?_⟩
  have hput : ∀ v : List (Step World SavingOp),
      u ++ [⟨.op (.key (.putPhase (eventPhase payload.event))),w⟩] <+: v →
      ∃ st ∈ v, st.label.putsPhase.isSome = true := by
    intro v hv
    exact ⟨⟨.op (.key (.putPhase (eventPhase payload.event))),w⟩,hv.subset (by simp),rfl⟩
  change Prog.Traced _ _ ((decideWake payload >>= fun _ =>
    if payload.event.idle = true then Prog.ret (.ok none) else handOver config).relabel SavingOp.op) _
  rw [Prog.relabel_bind]
  refine Prog.Traced.bind (leaving_traced hdecide _) fun v _ hv => ?_
  split_ifs
  · exact hput v hv
  · exact (leaving_traced hhand v).imp fun x _ hx => hput x (hv.trans hx)

lemma rememberHook_hooking (payload : HookPayload) (home : Str) (registration : Option Registration)
    {past : List (Step World SavingOp)} (h : Fresh past) :
    (rememberHook payload home registration).Traced (Hooking payload) (fun u _ => Fresh u) past := by
  cases registration with
  | none => exact h
  | some registration =>
    intro w
    refine ⟨rfl,?_⟩
    have hlook : Fresh (past ++ [⟨.op (.look .machine),w⟩]) := h.snoc rfl
    cases hr : savedRecord w.machine payload home registration with
    | none =>
      simp only [hr]
      exact hlook
    | some record =>
      have htime : record.time = w.machine.now := by
        unfold savedRecord at hr
        split_ifs at hr
        cases hr
        rfl
      simp only [hr]
      exact fun w' => ⟨⟨⟨⟨.op (.look .machine),w⟩,by simp,htime⟩,hlook⟩,hlook.snoc rfl⟩

lemma deliverSaving_hooking (payload : HookPayload) :
    (deliverSaving payload).Traced (Hooking payload) Hooked [] := by
  have hnil : Fresh [] := by simp [Fresh]
  unfold deliverSaving
  split_ifs
  · exact hnil.hooked _
  · intro w
    refine ⟨rfl,?_⟩
    refine Prog.Traced.bind (rememberHook_hooking payload _ _ (hnil.snoc rfl)) fun u _ hu => ?_
    intro w₁
    refine ⟨rfl,?_⟩
    have hu₁ : Fresh (u ++ [⟨.op (.look .config),w₁⟩]) := hu.snoc rfl
    cases hc : w₁.store.keys.config with
    | none =>
      simp only [Prog.bind,hc]
      exact hu₁.hooked _
    | some config =>
      simp only [Prog.bind,hc]
      intro w₂
      refine ⟨rfl,?_⟩
      have hu₂ : Fresh (u ++ [⟨.op (.look .config),w₁⟩] ++ [⟨.op (.look .machine),w₂⟩]) :=
        hu₁.snoc rfl
      cases hroute : routingRejection w₂.machine payload config true with
      | none =>
        simp only [Prog.bind,hroute]
        intro w₃
        refine ⟨⟨rfl,⟨_,_,rfl,rfl⟩,hu₂⟩,?_⟩
        exact (deliverRouted_hooking config payload _).imp fun v _ hv _ => hv
      | some reason =>
        simp only [Prog.bind,hroute]
        intro w₃
        refine ⟨rfl,?_⟩
        have hu₃ := hu₂.snoc (t := ⟨.op (.key (.putHookRejected (seenRecord w₂.machine payload config
          (register w.machine payload) (.rejected reason)))),w₃⟩) rfl
        simp only [Prog.bind]
        split_ifs
        · exact (deliverRouted_hooking config payload _).imp fun v _ hv _ => hv
        · exact hu₃.hooked _

/-! What the connection does. -/

/-- It reads, and then carries a saved record that it has found. -/
def Seeding (past : List (Step World SavingOp)) (t : Step World SavingOp) : Prop :=
  match t.label with
  | .op (.look _) => True
  | .op (.key (.seedLifecycle _ saved)) =>
    ∃ st ∈ past, ∃ thread, st.pre.machine.savedHook thread = some saved
  | _ => False

lemma savedEvidence_saved {m : Machine} {config : Config} {saved : SavedHook}
    (h : savedEvidence m config = some saved) : m.savedHook config.thread = some saved := by
  unfold savedEvidence at h
  split at h
  · cases h
  · rename_i found hfound
    split_ifs at h
    rw [hfound,h]

lemma seeding_traced : seeding.Traced Seeding (fun _ _ => True) [] := by
  intro w
  refine ⟨trivial,?_⟩
  cases hc : w.store.keys.config with
  | none =>
    simp only [Prog.bind,hc]
    trivial
  | some config =>
    simp only [Prog.bind,hc]
    intro w₁
    refine ⟨trivial,?_⟩
    cases hs : savedEvidence w₁.machine config with
    | none =>
      simp only [Prog.bind,hs]
      trivial
    | some saved =>
      simp only [Prog.bind,hs]
      intro w₂
      exact ⟨⟨⟨.op (.look .machine),w₁⟩,by simp,config.thread,savedEvidence_saved hs⟩,trivial⟩

/-- Evidence that is at least as new, or another owner's, stays. -/
lemma seedLifecycle_refused {identity : Str} {saved : SavedHook} {k : Meta} {seen : HookSeen}
    (hseen : k.hookSeen = some seen) (hmatched : seen.routing = .matched)
    (h : seen.ownerIdentity ≠ some identity ∨ saved.time ≤ seen.time) :
    seedLifecycle identity saved k = k := by
  have hnewer : newerEvidence identity saved.time k = true := by
    unfold newerEvidence
    rw [hseen]
    simpa [hmatched] using h
  rw [seedLifecycle,if_pos hnewer]

/-! The two side by side. -/

/-- The world around them: a clock that does not go back, and nobody else saves records. -/
def Around (t : Step World SavingOp) : Prop := ∃ m, t.label = .op (.outside m) ∧
  t.pre.machine.now ≤ m.now ∧ m.savedHook = t.pre.machine.savedHook

section
variable {payload : HookPayload} {w : World} {c : List (Turn SavingOp)}

/-- The joint run of a hook and a connection. -/
def hookBesideSeed (payload : HookPayload) (w : World) (c : List (Turn SavingOp)) :
    Joint World SavingOp (Except Exc (Option Str)) Unit :=
  beside (deliverSaving payload) seeding w c

lemma hooking_entry {A B : List (Actor × Step World SavingOp)} {t : Step World SavingOp}
    (h : (hookBesideSeed payload w c).steps = A ++ (.first,t)::B) :
    Hooking payload (stepsBy .first A) t := by
  have hexec := (beside_exec (deliverSaving payload) seeding w c).1
  change Exec _ _ _ (seenBy .first (hookBesideSeed payload w c).steps) _ _ at hexec
  rw [h,seenBy_append,seenBy_cons_self] at hexec
  exact (deliverSaving_hooking payload).entry hexec

lemma seeding_entry {A B : List (Actor × Step World SavingOp)} {t : Step World SavingOp}
    (h : (hookBesideSeed payload w c).steps = A ++ (.second,t)::B) :
    Seeding (stepsBy .second A) t := by
  have hexec := (beside_exec (deliverSaving payload) seeding w c).2
  change Exec _ _ _ (seenBy .second (hookBesideSeed payload w c).steps) _ _ at hexec
  rw [h,seenBy_append,seenBy_cons_self] at hexec
  exact seeding_traced.entry hexec

lemma hooked_end {r : Except Exc (Option Str)} (h : (hookBesideSeed payload w c).first = .ret r) :
    Hooked (stepsBy .first (hookBesideSeed payload w c).steps) r := by
  have hexec := (beside_exec (deliverSaving payload) seeding w c).1
  change Exec _ _ _ (seenBy .first (hookBesideSeed payload w c).steps) (hookBesideSeed payload w c).first _
    at hexec
  rw [h] at hexec
  have hdone := (deliverSaving_hooking payload).exec hexec
  rw [List.nil_append] at hdone
  exact hdone

/-- The connection writes nothing but the record and the phase, and leaves evidence that is at least
as new as what it carries, or another owner's. -/
lemma seed_step {t : Step World SavingOp}
    (ht : (.second,t) ∈ (hookBesideSeed payload w c).steps) :
    t.post.machine = t.pre.machine ∧ t.post.store.messages = t.pre.store.messages ∧
    (∀ key, key ≠ .hookSeen → key ≠ .phase →
      MetaKey.Same t.pre.store.keys t.post.store.keys key) ∧
    ∀ seen, t.pre.store.keys.hookSeen = some seen → seen.routing = .matched →
      (∀ identity saved, t.label = .op (.key (.seedLifecycle identity saved)) →
        seen.ownerIdentity ≠ some identity ∨ saved.time ≤ seen.time) →
      t.post.store.keys = t.pre.store.keys := by
  obtain ⟨A,B,hsplit⟩ := List.append_of_mem ht
  have hseeding := seeding_entry hsplit
  obtain ⟨l,s⟩ := t
  cases l with
  | saveHook record => exact hseeding.elim
  | op l =>
    cases l with
    | look what => exact ⟨rfl,rfl,fun key _ _ => key.same_refl _,fun _ _ _ _ => rfl⟩
    | key op =>
      cases op with
      | seedLifecycle identity saved =>
        refine ⟨rfl,rfl,?_,?_⟩
        · intro key hseen hphase
          exact KeyOp.frame s.machine s.store.keys (.seedLifecycle identity saved)
            (by simp [KeyOp.writes,hseen,hphase])
        · intro seen hseen hmatched hnewer
          exact seedLifecycle_refused hseen hmatched (hnewer identity saved rfl)
      | _ => exact hseeding.elim
    | _ => exact hseeding.elim

lemma hooking_inside {past : List (Step World SavingOp)} {l : Op} {s : World}
    (h : Hooking payload past ⟨.op l,s⟩) : l.isOutside = false := by
  cases l with
  | outside m => cases h
  | _ => rfl

variable (hworld : ∀ t, (.around,t) ∈ (hookBesideSeed payload w c).steps → Around t)

include hworld in
/-- The clock does not go back. -/
lemma beside_clock : ∀ x ∈ (hookBesideSeed payload w c).steps,
    x.2.pre.machine.now ≤ x.2.post.machine.now := by
  intro x hx
  obtain ⟨a,l,s⟩ := x
  cases a with
  | first =>
    obtain ⟨A,B,hsplit⟩ := List.append_of_mem hx
    have hhooking := hooking_entry hsplit
    cases l with
    | saveHook record => exact le_rfl
    | op l => exact (congrArg Machine.now (apply_machine (hooking_inside hhooking) s)).ge
  | second => exact (congrArg Machine.now (seed_step hx).1).ge
  | around =>
    obtain ⟨m,hl,hnow,-⟩ := hworld _ hx
    change l = _ at hl
    subst hl
    exact hnow

variable (payload w c) in
/-- The steps of the run as a sequence of labels. -/
lemma beside_sequence : ∃ ls, (hookBesideSeed payload w c).steps.map (·.2) = stepsOf w ls ∧
    (hookBesideSeed payload w c).state = after w ls := beside_labels ..

variable {A B : List (Actor × Step World SavingOp)} {seen : HookSeen} {s : World}
  (hsplit : (hookBesideSeed payload w c).steps =
    A ++ (.first,⟨.op (.key (.putHookSeen seen)),s⟩)::B)

include hworld hsplit in
/-- What the hook saves is not newer than what it records. -/
lemma save_le_seen {record : SavedHook} {t : World}
    (ht : (.first,⟨.saveHook record,t⟩) ∈ (hookBesideSeed payload w c).steps) :
    record.time ≤ seen.time := by
  obtain ⟨A',B',hsplit'⟩ := List.append_of_mem ht
  obtain ⟨⟨u,hu,htime⟩,hfresh⟩ := hooking_entry hsplit'
  obtain ⟨-,⟨O,v,hO,hseen⟩,-⟩ := hooking_entry hsplit
  -- the own steps of the hook come in the order of the clock
  have hown : ∀ {A B : List (Actor × Step World SavingOp)} {x : Step World SavingOp},
      (hookBesideSeed payload w c).steps = A ++ (.first,x)::B →
      stepsBy .first (hookBesideSeed payload w c).steps = stepsBy .first A ++ x :: stepsBy .first B := by
    intro A B x h
    rw [h,stepsBy,seenBy_append,seenBy_cons_self,ownSteps_append,ownSteps_cons_own]
    rfl
  have hclock : (stepsBy .first (hookBesideSeed payload w c).steps).Pairwise
      fun t u => t.pre.machine.now ≤ u.pre.machine.now := by
    obtain ⟨ls,hls,-⟩ := beside_sequence payload w c
    refine List.Pairwise.sublist (stepsBy_sublist _ _) ?_
    rw [hls]
    refine (stepsOf_pairwise (fun s : World => s.machine.now) ?_).1
    intro t ht
    rw [← hls] at ht
    obtain ⟨x,hx,rfl⟩ := List.mem_map.mp ht
    exact beside_clock hworld x hx
  have hboth := (hown hsplit').symm.trans (hown hsplit)
  rw [htime,hseen]
  rcases List.append_eq_append_iff.mp hboth with ⟨D,hD,hrest⟩ | ⟨D,hD,hrest⟩
  · -- the record is saved first
    cases D with
    | nil => simp at hrest
    | cons d D =>
      rw [List.cons_append,List.cons.injEq] at hrest
      obtain ⟨rfl,-⟩ := hrest
      have hlast : v ∈ (⟨.saveHook record,t⟩ : Step World SavingOp) :: D := by
        rw [hO] at hD
        have hv := congrArg List.getLast? hD
        rw [List.getLast?_concat,List.getLast?_append_of_ne_nil _ (List.cons_ne_nil _ _)] at hv
        exact List.mem_of_getLast? hv.symm
      rw [hown hsplit,hD,List.append_assoc] at hclock
      exact (List.pairwise_append.mp hclock).2.2 u hu v (List.mem_append_left _ hlast)
  · cases D with
    | nil => simp at hrest
    | cons d D =>
      rw [List.cons_append,List.cons.injEq] at hrest
      obtain ⟨rfl,-⟩ := hrest
      have hbad := hfresh ⟨.op (.key (.putHookSeen seen)),s⟩ (by rw [hD]; simp)
      cases hbad

variable (hsaved : ∀ thread saved, w.machine.savedHook thread = some saved →
  saved.time ≤ w.machine.now)

include hworld hsplit hsaved in
/-- No saved record is ever newer than what the hook records. -/
lemma saved_le_seen : ∀ x ∈ (hookBesideSeed payload w c).steps, ∀ thread saved,
    x.2.pre.machine.savedHook thread = some saved → saved.time ≤ seen.time := by
  obtain ⟨ls,hls,-⟩ := beside_sequence payload w c
  have hmem : ∀ t ∈ stepsOf w ls, ∃ a, (a,t) ∈ (hookBesideSeed payload w c).steps := by
    intro t ht
    rw [← hls] at ht
    obtain ⟨⟨a,u⟩,hx,rfl⟩ := List.mem_map.mp ht
    exact ⟨a,hx⟩
  have hstart : w.machine.now ≤ seen.time := by
    obtain ⟨-,⟨O,v,hO,hseen⟩,-⟩ := hooking_entry hsplit
    have hv : v ∈ stepsOf w ls := by
      have hown : (.first,v) ∈ A := mem_stepsBy.mp (by rw [hO]; simp)
      rw [← hls,hsplit]
      exact List.mem_map_of_mem (List.mem_append_left _ hown)
    rw [hseen]
    refine (stepsOf_pairwise (fun s : World => s.machine.now) ?_).2 v hv
    intro t ht
    obtain ⟨a,hx⟩ := hmem t ht
    exact beside_clock hworld _ hx
  have hall : ∀ t ∈ stepsOf w ls, ∀ thread saved,
      t.pre.machine.savedHook thread = some saved → saved.time ≤ seen.time := by
    refine steps_invariant (P := fun s : World => ∀ thread saved,
      s.machine.savedHook thread = some saved → saved.time ≤ seen.time)
      (fun thread saved h => (hsaved thread saved h).trans hstart) ?_
    intro t ht hpre
    obtain ⟨a,hx⟩ := hmem t ht
    obtain ⟨l,s⟩ := t
    cases a with
    | first =>
      cases l with
      | saveHook record =>
        intro thread saved h
        change Function.update s.machine.savedHook record.thread (some record) thread = _ at h
        by_cases hthread : thread = record.thread
        · rw [hthread,Function.update_self] at h
          obtain rfl := Option.some.inj h
          exact save_le_seen hworld hsplit hx
        · rw [Function.update_of_ne hthread] at h
          exact hpre thread saved h
      | op l =>
        obtain ⟨A',B',hsplit'⟩ := List.append_of_mem hx
        have hm := apply_machine (hooking_inside (hooking_entry hsplit')) s
        change ∀ thread saved, (apply l s).machine.savedHook thread = some saved → _
        rw [hm]
        exact hpre
    | second =>
      rw [(seed_step hx).1]
      exact hpre
    | around =>
      obtain ⟨m,hl,-,hkept⟩ := hworld _ hx
      change l = _ at hl
      subst hl
      change ∀ thread saved, m.savedHook thread = some saved → _
      rw [hkept]
      exact hpre
  intro x hx
  exact hall x.2 (by rw [← hls]; exact List.mem_map_of_mem hx)

include hworld hsplit hsaved in
/-- After the hook has recorded itself, its record stays, and only it writes the phase. -/
lemma kept_after {x : Actor × Step World SavingOp} (hx : x ∈ B)
    (hpre : x.2.pre.store.keys.hookSeen = some seen) :
    x.2.post.store.keys.hookSeen = some seen ∧
      (x.2.post.store.keys.phase = x.2.pre.store.keys.phase ∨
        x.2.post.store.keys.phase = some (eventPhase payload.event)) := by
  obtain ⟨B₁,B₂,rfl⟩ := List.append_of_mem hx
  obtain ⟨a,l,t⟩ := x
  have hx' : (a,⟨l,t⟩) ∈ (hookBesideSeed payload w c).steps := by
    rw [hsplit]
    simp
  have hsplit' : (hookBesideSeed payload w c).steps =
      (A ++ (.first,⟨.op (.key (.putHookSeen seen)),s⟩)::B₁) ++ (a,⟨l,t⟩)::B₂ := by
    rw [hsplit]
    simp
  cases a with
  | first =>
    have hhooking := hooking_entry hsplit'
    have hput : (⟨.op (.key (.putHookSeen seen)),s⟩ : Step World SavingOp) ∈
        stepsBy .first (A ++ (.first,⟨.op (.key (.putHookSeen seen)),s⟩)::B₁) :=
      mem_stepsBy.mpr (by simp)
    have hnotFresh : ¬ Fresh (stepsBy .first
        (A ++ (.first,⟨.op (.key (.putHookSeen seen)),s⟩)::B₁)) := by
      intro hfresh
      have hbad := hfresh _ hput
      cases hbad
    have hleaves : ∀ l : Op, l.leaves = true →
        (apply l t).store.keys.hookSeen = t.store.keys.hookSeen ∧
          (apply l t).store.keys.phase = t.store.keys.phase := by
      intro l hl
      simp only [Op.leaves,Op.leavesEvidence,Bool.and_eq_true,decide_eq_true_eq] at hl
      have hseen : MetaKey.hookSeen.Same t.store.keys (apply l t).store.keys :=
        apply_frame l t hl.1.2
      have hphase : MetaKey.phase.Same t.store.keys (apply l t).store.keys := apply_frame l t hl.1.1
      exact ⟨hseen,hphase⟩
    cases l with
    | saveHook record => exact ⟨hpre,Or.inl rfl⟩
    | op l =>
      cases l with
      | key op =>
        cases op with
        | putHookSeen seen' => exact absurd hhooking.2.2 hnotFresh
        | putPhase phase =>
          obtain rfl : phase = eventPhase payload.event := hhooking
          exact ⟨hpre,Or.inr rfl⟩
        | _ => exact ⟨(hleaves _ hhooking).1.trans hpre,Or.inl (hleaves _ hhooking).2⟩
      | _ => exact ⟨(hleaves _ hhooking).1.trans hpre,Or.inl (hleaves _ hhooking).2⟩
  | second =>
    have hsame := (seed_step hx').2.2.2 seen hpre (hooking_entry hsplit).1 ?_
    · rw [hsame]
      exact ⟨hpre,Or.inl rfl⟩
    · intro identity saved hl
      right
      change l = _ at hl
      subst hl
      obtain ⟨st,hst,thread,hfound⟩ := seeding_entry hsplit'
      have hstmem : (.second,st) ∈ (hookBesideSeed payload w c).steps := by
        rw [hsplit']
        exact List.mem_append_left _ (mem_stepsBy.mp hst)
      exact saved_le_seen hworld hsplit hsaved _ hstmem thread saved hfound
  | around =>
    obtain ⟨m,hl,-⟩ := hworld _ hx'
    change l = _ at hl
    subst hl
    exact ⟨hpre,Or.inl rfl⟩

include hsplit in
/-- A hook that has recorded itself and ends, has set the phase of its event in between. -/
lemma phase_after_seen {r : Except Exc (Option Str)}
    (hr : (hookBesideSeed payload w c).first = .ret r) : ∃ B₁ t B₂, B = B₁ ++ (.first,t)::B₂ ∧
      t.label = .op (.key (.putPhase (eventPhase payload.event))) := by
  obtain ⟨-,-,hfresh⟩ := hooking_entry hsplit
  obtain ⟨t,ht,hphase⟩ := hooked_end hr
    ⟨⟨.op (.key (.putHookSeen seen)),s⟩,mem_stepsBy.mpr (by rw [hsplit]; simp),rfl⟩
  have hmem : (.first,t) ∈ (hookBesideSeed payload w c).steps := mem_stepsBy.mp ht
  rw [hsplit] at hmem
  have hlater : (.first,t) ∈ B := by
    rcases List.mem_append.mp hmem with hA | hB
    · have hleaves := (leaves_puts (hfresh t (mem_stepsBy.mpr hA))).2
      rw [hleaves] at hphase
      cases hphase
    · rcases List.mem_cons.mp hB with heq | hB
      · cases heq
        cases hphase
      · exact hB
  obtain ⟨B₁,B₂,rfl⟩ := List.append_of_mem hlater
  have hsplit' : (hookBesideSeed payload w c).steps =
      (A ++ (.first,⟨.op (.key (.putHookSeen seen)),s⟩)::B₁) ++ (.first,t)::B₂ := by
    rw [hsplit]
    simp
  have hhooking := hooking_entry hsplit'
  refine ⟨B₁,t,B₂,rfl,?_⟩
  obtain ⟨l,u⟩ := t
  cases l with
  | saveHook record => cases hphase
  | op l =>
    cases l with
    | key op =>
      cases op with
      | putPhase phase =>
        obtain rfl : phase = eventPhase payload.event := hhooking
        rfl
      | _ => cases hphase
    | _ => cases hphase

end

/-- A hook that records itself and runs to its end beside a connection leaves its record and the phase
of its event, whatever the order; and the connection writes nothing but these two, and never over
evidence that is at least as new as what it carries, or another owner's. -/
theorem seed_commutes (payload : HookPayload) (w : World) (c : List (Turn SavingOp)) :
    (∀ t, (.second,t) ∈ (hookBesideSeed payload w c).steps →
      (∀ key, key ≠ .hookSeen → key ≠ .phase →
        MetaKey.Same t.pre.store.keys t.post.store.keys key) ∧
      ∀ old, t.pre.store.keys.hookSeen = some old → old.routing = .matched →
        (∀ identity saved, t.label = .op (.key (.seedLifecycle identity saved)) →
          old.ownerIdentity ≠ some identity ∨ saved.time ≤ old.time) →
        t.post.store.keys = t.pre.store.keys) ∧
    ((∀ thread saved, w.machine.savedHook thread = some saved → saved.time ≤ w.machine.now) →
      (∀ t, (.around,t) ∈ (hookBesideSeed payload w c).steps → Around t) →
      (∃ r, (hookBesideSeed payload w c).first = .ret r) →
      ∀ seen s, (.first,⟨.op (.key (.putHookSeen seen)),s⟩) ∈ (hookBesideSeed payload w c).steps →
        (hookBesideSeed payload w c).state.store.keys.hookSeen = some seen ∧
        (hookBesideSeed payload w c).state.store.keys.phase = some (eventPhase payload.event)) := by
  constructor
  · intro t ht
    obtain ⟨-,-,hsame,hkept⟩ := seed_step ht
    exact ⟨hsame,hkept⟩
  · intro hsaved hworld hdone seen s hseen
    obtain ⟨r,hr⟩ := hdone
    obtain ⟨A,B,hsplit⟩ := List.append_of_mem hseen
    obtain ⟨ls,hls,hstate⟩ := beside_sequence payload w c
    -- the steps after the hook has recorded itself
    rw [hsplit,List.map_append,List.map_cons] at hls
    obtain ⟨ks,ms,rfl,-,hpre,hB⟩ := stepsOf_cut hls.symm
    rw [Interleaving.after_append,after_cons] at hstate
    have hBmem : ∀ t ∈ B.map (·.2), ∃ x ∈ B, x.2 = t := fun t ht => List.mem_map.mp ht
    have hpost : (Step.post (⟨.op (.key (.putHookSeen seen)),s⟩ : Step World SavingOp)) =
        apply (SavingOp.op (.key (.putHookSeen seen))) (after w ks) := by
      rw [← hpre]
      rfl
    have hrecord : (Step.post (⟨.op (.key (.putHookSeen seen)),s⟩ :
        Step World SavingOp)).store.keys.hookSeen = some seen := rfl
    have hkeeps : ∀ t ∈ stepsOf (Step.post (⟨.op (.key (.putHookSeen seen)),s⟩ :
        Step World SavingOp)) ms, t.pre.store.keys.hookSeen = some seen →
        t.post.store.keys.hookSeen = some seen := by
      intro t ht h
      rw [← hB] at ht
      obtain ⟨x,hx,rfl⟩ := hBmem t ht
      exact (kept_after hworld hsplit hsaved hx h).1
    have hthroughout := steps_invariant (P := fun u : World => u.store.keys.hookSeen = some seen)
      hrecord hkeeps
    rw [← hpost] at hstate
    constructor
    · rw [hstate]
      exact steps_induction (P := fun u : World => u.store.keys.hookSeen = some seen) hrecord hkeeps
    · obtain ⟨B₁,t,B₂,rfl,hlabel⟩ := phase_after_seen hsplit hr
      have hcut : stepsOf (Step.post (⟨.op (.key (.putHookSeen seen)),s⟩ : Step World SavingOp)) ms =
          B₁.map (·.2) ++ t :: B₂.map (·.2) := by
        rw [← hB]
        simp
      obtain ⟨ks',ms',hms,-,hpre',hB₂⟩ := stepsOf_cut hcut
      have hpost' : t.post = apply t.label (after (Step.post
          (⟨.op (.key (.putHookSeen seen)),s⟩ : Step World SavingOp)) ks') := by
        rw [← hpre']
        rfl
      rw [hstate,hms,Interleaving.after_append,after_cons,← hpost']
      have hset : t.post.store.keys.phase = some (eventPhase payload.event) := by
        change (apply t.label t.pre).store.keys.phase = _
        rw [hlabel]
        rfl
      refine steps_induction (P := fun u : World =>
        u.store.keys.phase = some (eventPhase payload.event)) hset ?_
      intro u hu hphase
      have humem : u ∈ (B₁ ++ (.first,t)::B₂).map (·.2) := by
        rw [← hB₂] at hu
        rw [List.map_append,List.map_cons]
        exact List.mem_append_right _ (List.mem_cons_of_mem _ hu)
      have huseen : u.pre.store.keys.hookSeen = some seen :=
        hthroughout u (by rwa [← hB])
      obtain ⟨x,hx,rfl⟩ := hBmem u humem
      rcases (kept_after hworld hsplit hsaved hx huseen).2 with h | h
      · exact h.trans hphase
      · exact h

/-! A start that has been saved before the connection, and a hook of a tool use. -/

def savedStart : SavedHook where
  thread := sampleConfig.thread
  ownerPid := 7
  ownerIdentity := str "7:1"
  codexHome := str "/home/u/.codex"
  time := 0
  event := .sessionStart
  turn := none
  matched := true
  transcript := some (str "/rollout")

def startedMachine (now : Time) : Machine := { hookMachine with
  hookOwner := some 7
  now := now
  savedHook := fun _ => some savedStart }

def started : World := after (World.new (startedMachine 1)) [Op.key (.putConfig sampleConfig)]

/-- The connection finds the saved record before the hook saves its own, and writes after the hook has
set the phase. -/
def carrying : List (Turn SavingOp) :=
  .first :: .second :: .second :: .around (.op (.outside (startedMachine 2))) ::
    List.replicate 6 .first ++ .second :: List.replicate 3 .first

theorem seed_commutes_carried : ∃ seen,
    (hookBesideSeed sampleToolUse started carrying).state.store.keys.hookSeen = some seen ∧
    (hookBesideSeed sampleToolUse started carrying).state.store.keys.phase = some .active := by
  have hsaved : ∀ thread saved, started.machine.savedHook thread = some saved →
      saved.time ≤ started.machine.now := by
    intro thread saved h
    change some savedStart = some saved at h
    cases h
    change (0 : Time) ≤ 1
    decide
  have hworld : ∀ t, (.around,t) ∈ (hookBesideSeed sampleToolUse started carrying).steps →
      Around t := by
    intro t ht
    have hmoves : ((hookBesideSeed sampleToolUse started carrying).steps.drop 3).take 1 =
        [(.around,⟨.op (.outside (startedMachine 2)),started⟩)] := rfl
    have hbefore : ((hookBesideSeed sampleToolUse started carrying).steps.take 3).all
        (·.1 ≠ .around) = true := by decide +kernel
    have hafter : ((hookBesideSeed sampleToolUse started carrying).steps.drop 4).all
        (·.1 ≠ .around) = true := by decide +kernel
    rw [← List.take_append_drop 3 (hookBesideSeed sampleToolUse started carrying).steps,
      ← List.take_append_drop 1 ((hookBesideSeed sampleToolUse started carrying).steps.drop 3),
      hmoves,List.drop_drop] at ht
    simp only [List.mem_append,List.mem_singleton] at ht
    rcases ht with ht | ht | ht
    · simpa using List.all_eq_true.mp hbefore _ ht
    · cases ht
      exact ⟨startedMachine 2,rfl,show (1 : Time) ≤ 2 by decide,rfl⟩
    · simpa using List.all_eq_true.mp hafter _ ht
  have hdone : ∃ r, (hookBesideSeed sampleToolUse started carrying).first = .ret r := by
    have h : (hookBesideSeed sampleToolUse started carrying).first.isDone = true := by decide +kernel
    cases hp : (hookBesideSeed sampleToolUse started carrying).first with
    | ret r => exact ⟨r,rfl⟩
    | act l next =>
      rw [hp] at h
      cases h
  have hseen : ∃ seen s, (.first,⟨.op (.key (.putHookSeen seen)),s⟩) ∈
      (hookBesideSeed sampleToolUse started carrying).steps := by
    have h : (hookBesideSeed sampleToolUse started carrying).steps.any
        (fun x => x.1 = .first && x.2.label.putsSeen.isSome) = true := by decide +kernel
    obtain ⟨⟨a,l,s⟩,hx,hput⟩ := List.any_eq_true.mp h
    simp only [Bool.and_eq_true,decide_eq_true_eq] at hput
    obtain ⟨rfl,hput⟩ := hput
    cases l with
    | saveHook record => cases hput
    | op l =>
      cases l with
      | key op =>
        cases op with
        | putHookSeen seen => exact ⟨seen,s,hx⟩
        | _ => cases hput
      | _ => cases hput
  obtain ⟨seen,s,hmem⟩ := hseen
  exact ⟨seen,(seed_commutes sampleToolUse started carrying).2 hsaved hworld hdone seen s hmem⟩

end PeerChat
