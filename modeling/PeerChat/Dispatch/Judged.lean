import PeerChat.Interleaving.Log
import PeerChat.System.Made

/-! What a process goes by when it moves a message by itself: the configuration, the machine and
the row that its own last reads have found. -/
namespace PeerChat
open Python Wire Interleaving

def Op.isLook (what : Look) : Op → Bool
  | .look w => w = what
  | _ => false

/-- The world that the last read of a kind has found. -/
def lastFound (what : Look) (past : List (Step World Op)) : Option World :=
  (past.reverse.find? fun t => t.label.isLook what).map (·.pre)

def foundConfig (past : List (Step World Op)) : Option Config :=
  (lastFound .config past).bind (·.store.keys.config)

def foundMachine (past : List (Step World Op)) : Option Machine :=
  (lastFound .machine past).map (·.machine)

/-- The oldest unread row. -/
def foundRow (past : List (Step World Op)) : Option MessageRow :=
  (lastFound .inbox past).bind (·.store.pending.head?)

lemma lastFound_append (what : Look) (past : List (Step World Op)) (t : Step World Op) :
    lastFound what (past ++ [t]) =
      if t.label.isLook what then some t.pre else lastFound what past := by
  rw [lastFound,List.reverse_append,List.reverse_singleton,List.singleton_append,List.find?_cons]
  cases t.label.isLook what <;> rfl

/-- A read that has found something is in the past. -/
lemma lastFound_mem {what : Look} {past : List (Step World Op)} {w : World}
    (h : lastFound what past = some w) : ⟨.look what,w⟩ ∈ past := by
  obtain ⟨⟨l,s⟩,hfind,rfl⟩ := Option.map_eq_some_iff.mp h
  have hl := List.find?_some hfind
  have hmem := List.mem_of_find?_eq_some hfind
  cases l with
  | look k =>
    obtain rfl : k = what := by simpa [Op.isLook] using hl
    exact List.mem_reverse.mp hmem
  | _ => cases hl

/-- What a process has found out about the row that it is about to move. -/
def Finds (past : List (Step World Op)) (key : Str × Str) (reason : Option Str → Prop) : Prop :=
  ∃ config m row, foundConfig past = some config ∧ foundMachine past = some m ∧
    foundRow past = some row ∧ row.key = key ∧ reason (holdReason m config row)

/-- What a step that moves messages by itself goes by. -/
def Judged (past : List (Step World Op)) (t : Step World Op) : Prop :=
  match t.label with
  | .inbox (.offer config _) | .inbox (.claimWake config) => foundConfig past = some config
  | .inbox (.claimForwarding peer id) => Finds past (peer,id) (· = none)
  | .inbox (.setStatus peer id .held _) => Finds past (peer,id) (· ≠ none)
  | _ => True

/-- The end of a program about which nothing is asked. -/
abbrev Anyhow {α : Type} : List (Step World Op) → α → Prop := fun _ _ => True

/-! Programs that move nothing, or go by one configuration. -/

/-- An access that reads no configuration and is the claim or the offer of none but this one. -/
def Op.goesBy (config : Config) : Op → Prop
  | .look what => what ≠ .config
  | .inbox (.offer c _) | .inbox (.claimWake c) => c = config
  | .inbox (.claimForwarding ..) | .inbox (.setStatus _ _ .held _) => False
  | _ => True

lemma goesBy_judged {α : Type} {config : Config} {p : Code α} {past : List (Step World Op)}
    (hp : p.Emits (Op.goesBy config)) (hc : foundConfig past = some config) :
    p.Traced Judged (fun u _ => foundConfig u = some config) past := by
  refine Prog.Traced.of_emits (K := fun u => foundConfig u = some config) hp ?_ hc
  intro u l s hu hl
  refine ⟨?_,?_⟩
  · cases l with
    | inbox op =>
      cases op with
      | offer c notice => exact hl ▸ hu
      | claimWake c => exact hl ▸ hu
      | claimForwarding peer id => exact hl.elim
      | setStatus peer id outcome detail =>
        cases outcome with
        | held => exact hl.elim
        | _ => trivial
      | _ => trivial
    | _ => trivial
  · have hlook : ¬ l.isLook .config = true := by
      cases l with
      | look what => simpa [Op.isLook,Op.goesBy] using hl
      | _ => simp [Op.isLook]
    rw [foundConfig,lastFound_append,if_neg hlook]
    exact hu

lemma judged_anyhow {α : Type} {Q : List (Step World Op) → α → Prop} {p : Code α}
    {past : List (Step World Op)} (hp : p.Traced Judged Q past) : p.Traced Judged Anyhow past :=
  hp.imp fun _ _ _ => trivial

/-- A program that is neither a hook nor a listener moves nothing. -/
lemma made_judged {α : Type} {ρ : Rights} {p : Code α} (hl : ρ.listener = false)
    (hh : ρ.hook = false) (hp : p.Emits (Made ρ)) (past : List (Step World Op)) :
    p.Traced Judged Anyhow past := by
  refine Prog.Traced.of_emits (K := fun _ => True) hp ?_ trivial
  intro u l s _ hmade
  refine ⟨?_,trivial⟩
  have hl' : ¬ ρ.listener = true := by simp [hl]
  have hh' : ¬ ρ.hook = true := by simp [hh]
  cases l with
  | inbox op =>
    cases op with
    | offer c notice => exact absurd hmade hh'
    | claimWake c => exact absurd hmade hl'
    | claimForwarding peer id => exact absurd hmade hl'
    | setStatus peer id outcome detail => exact absurd hmade hl'
    | _ => trivial
  | _ => trivial

/-! The hook. -/

lemma deliverRouted_goesBy (config : Config) (payload : HookPayload) :
    (deliverRouted config payload).Emits (Op.goesBy config) := by
  have hrenew : (renewWindow payload).Emits (Op.goesBy config) :=
    renewWindow_emits (fun _ => trivial) payload
  have hdecide : (decideWake payload).Emits (Op.goesBy config) := decideWake_emits trivial
  refine hrenew.bind fun _ => ⟨trivial,fun _ => hdecide.bind fun _ => ?_⟩
  split_ifs
  · trivial
  · exact handOver_emits trivial fun _ => rfl

lemma deliver_judged (payload : HookPayload) (past : List (Step World Op)) :
    (deliver payload).Traced Judged Anyhow past := by
  simp only [deliver]
  split_ifs
  · trivial
  · refine fun w => ⟨trivial,fun w₁ => ⟨trivial,?_⟩⟩
    simp only [Prog.bind]
    split
    · trivial
    · rename_i config hc
      refine judged_anyhow (@goesBy_judged _ config _ _ ⟨by rintro ⟨⟩,fun w₂ => ?_⟩ ?_)
      · simp only [Prog.bind]
        split
        · exact ⟨trivial,fun _ => deliverRouted_goesBy config payload⟩
        · refine ⟨trivial,fun _ => ?_⟩
          simp only [Prog.bind]
          split_ifs
          · exact deliverRouted_goesBy config payload
          · trivial
      · rw [foundConfig,lastFound_append]
        exact hc

/-! The listener. -/

/-- A queue call never ends with `held`. -/
lemma forwardOutcome_ne_held {m : Machine} {config : Config} {row : MessageRow}
    {outcome : Store.Outcome} {detail : Str}
    (h : forwardOutcome m config row = some (outcome,detail)) : outcome ≠ .held := by
  rintro rfl
  simp only [forwardOutcome] at h
  repeat' split at h
  all_goals simp at h

lemma forward_judged {config : Config} {row : MessageRow} {past : List (Step World Op)}
    (hc : foundConfig past = some config) (hr : foundRow past = some row) :
    (forward config row).Traced Judged Anyhow past := by
  refine fun w => ⟨trivial,?_⟩
  -- what the process has found out after its look at the machine
  have hfinds : ∀ reason : Option Str → Prop, reason (holdReason w.machine config row) →
      Finds (past ++ [⟨.look .machine,w⟩]) (row.peer,row.id) reason := by
    intro reason h
    refine ⟨config,w.machine,row,?_,?_,?_,rfl,h⟩
    · rw [foundConfig,lastFound_append]
      exact hc
    · rw [foundMachine,lastFound_append]
      rfl
    · rw [foundRow,lastFound_append]
      exact hr
  simp only [Prog.bind]
  split_ifs with he hh
  · exact fun w₁ => ⟨hfinds (· ≠ none) (by simp [holdReason,he,hh]),trivial⟩
  · refine fun w₁ => ⟨hfinds (· = none) (by simp [holdReason,he,hh]),?_⟩
    simp only [Prog.bind]
    split_ifs
    · refine fun w₂ => ⟨trivial,?_⟩
      simp only [Prog.bind]
      split
      · trivial
      · rename_i outcome detail hout
        refine fun w₃ => ⟨?_,trivial⟩
        cases outcome with
        | held => exact absurd rfl (forwardOutcome_ne_held hout)
        | _ => trivial
    · trivial
  · exact fun w₁ => ⟨hfinds (· ≠ none) (by simp [holdReason,he]),trivial⟩

lemma dispatchInbox_judged {config : Config} {past : List (Step World Op)}
    (hc : foundConfig past = some config) :
    (dispatchInbox config).Traced Judged Anyhow past := by
  refine fun w₁ => ⟨trivial,?_⟩
  simp only [Prog.bind]
  split_ifs
  · trivial
  · refine fun w₂ => ⟨trivial,?_⟩
    simp only [Prog.bind]
    split_ifs
    · -- the claim of a wake goes by the configuration alone
      refine fun w₃ => ⟨?_,?_⟩
      · simp only [Judged,foundConfig,lastFound_append]
        exact hc
      · simp only [Prog.bind]
        split
        · trivial
        · refine fun w₄ => ⟨trivial,fun w₅ => ⟨trivial,?_⟩⟩
          simp only [Prog.bind]
          split
          · trivial
          · exact fun w₆ => ⟨trivial,trivial⟩
    · refine fun w₃ => ⟨trivial,?_⟩
      simp only [Prog.bind]
      split_ifs
      · trivial
      · refine fun w₄ => ⟨trivial,?_⟩
        simp only [Prog.bind]
        split_ifs
        · refine fun w₅ => ⟨trivial,?_⟩
          simp only [Prog.bind]
          split
          · trivial
          · rename_i row rows hp
            refine forward_judged ?_ ?_
            · simp only [foundConfig,lastFound_append]
              exact hc
            · simp only [foundRow,lastFound_append]
              change w₅.store.pending.head? = some row
              rw [hp]
              rfl
        · trivial

lemma dispatch_judged (U : Interp) {config : Config} {past : List (Step World Op)}
    (hc : foundConfig past = some config) :
    (dispatch U config).Traced Judged Anyhow past := by
  refine fun w => ⟨trivial,?_⟩
  simp only [Prog.bind]
  have hc' : foundConfig (past ++ [⟨.look .outgoing,w⟩]) = some config := by
    rw [foundConfig,lastFound_append]
    exact hc
  split
  · rename_i row _
    refine judged_anyhow (@goesBy_judged _ config _ _ ?_ hc')
    refine dispatchOutgoing_emits ?_ U config row trivial (fun _ => trivial) fun _ _ => trivial
    rintro what hw rfl
    cases hw
  · exact dispatchInbox_judged hc'

lemma serve_judged (U : Interp) (pid : Pid) (passes : List Bool) (past : List (Step World Op)) :
    (serve U pid passes).Traced Judged Anyhow past := by
  have hpass : ∀ due past, (workerPass U due).Traced Judged Anyhow past := by
    intro due past w
    refine ⟨trivial,?_⟩
    simp only [Prog.bind]
    split
    · trivial
    · rename_i config hc
      refine fun w₁ => ⟨trivial,?_⟩
      have hc' : foundConfig (past ++ [⟨.look .config,w⟩] ++ [⟨.look .machine,w₁⟩]) = some config := by
        rw [foundConfig,lastFound_append,lastFound_append]
        exact hc
      simp only [Prog.bind]
      have hsupervise : ∀ wanted, (supervise config wanted).Emits (Op.goesBy config) :=
        supervise_emits (fun _ hw => hw) (fun _ => trivial) config
      refine Prog.Traced.bind (goesBy_judged (hsupervise _) hc') fun u _ hu => ?_
      split_ifs
      · exact dispatch_judged U hu
      · trivial
  have hworker : ∀ past, (worker U passes).Traced Judged Anyhow past := by
    induction passes with
    | nil => exact fun _ => trivial
    | cons due rest ih =>
      intro past
      refine (hpass due past).bind fun u goesOn _ => ?_
      split_ifs
      · exact ih u
      · trivial
  refine fun w => ⟨trivial,fun w₁ => ⟨trivial,?_⟩⟩
  simp only [Prog.bind]
  split_ifs
  · trivial
  · split
    · trivial
    · refine Prog.Traced.bind (P := Anyhow) ?_ fun u _ _ => (hworker u).bind fun u _ _ => ?_
      · exact fun _ => ⟨trivial,fun _ => ⟨trivial,fun _ => ⟨trivial,fun _ => ⟨trivial,trivial⟩⟩⟩⟩
      · exact fun _ => ⟨trivial,trivial⟩

/-- Every program of the bridge goes by its own last reads. -/
theorem Process.code_judged (U : Interp) (p : Process) :
    (p.code U).Traced Judged Anyhow [] := by
  have hmade := p.code_made U
  cases p with
  | deliver payload => exact (deliver_judged payload []).bind fun _ _ _ => trivial
  | serve pid passes => exact serve_judged U pid passes []
  | accept peer frame =>
    cases frame with
    | _ => exact made_judged rfl rfl hmade []
  | _ => exact made_judged rfl rfl hmade []

/-- In every run of the bridge, a process goes by what it has found in the run. -/
theorem log_judged (U : Interp) (honest : Bool) (w : World) (es : Schedule) :
    ∀ r ∈ (bridge U honest).log w es, r.step.label.isOutside = true ∨
      ∃ i, r.process = some i ∧ Judged r.before r.step := by
  intro r hr
  have h := (System.log_explained (Process.code_judged U) es (System.known_idle w)).2 r hr
  simp only [System.Explained] at h
  cases hp : r.process with
  | none =>
    rw [hp] at h
    exact Or.inl h
  | some i =>
    rw [hp] at h
    exact Or.inr ⟨i,rfl,h⟩

end PeerChat
