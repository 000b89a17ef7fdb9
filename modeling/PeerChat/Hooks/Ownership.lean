import PeerChat.Dispatch.Guarded
import PeerChat.System.Frame

/-! Whose process the evidence of a hook is. A hook determines its owner first and records itself
later; a start deletes the evidence of another owner in one transaction and names the new owner in
the next. -/
namespace PeerChat
open Python Wire Interleaving

/-- Hooks, and starts, which hold a lock for their lifetime. -/
inductive OwnerProcess
  | deliver (payload : HookPayload)
  | start (args : StartArgs)

/-- Only hooks and starts, on a machine that may change: a process exits, another begins. -/
def owners : System OwnerProcess World Op where
  code
    | .deliver payload => PeerChat.deliver payload >>= fun _ => .ret ()
    | .start args => startBridge args >>= fun _ => .ret ()
  exclusive
    | .deliver _ => false
    | .start _ => true
  allowed _ _ := true
  outside := Op.isOutside

/-- The identity of the process that a hook runs under, as it has found it first. -/
def ranUnder (past : List (Step World Op)) : Option Str :=
  past.head?.bind fun t => t.pre.machine.hookOwner.bind t.pre.machine.processIdentity

/-- The identity under which the hook of the current record ran, after one more access: a hook's own,
or that of the saved hook. -/
def originStep (origin : Option Str) (r : Record World Op) : Option Str :=
  match r.step.label with
  | .key (.putHookSeen _) => ranUnder r.before
  | .key (.seedLifecycle identity saved) =>
    if newerEvidence identity saved.time r.step.pre.store.keys then origin
    else some saved.ownerIdentity
  | _ => origin

/-- The identity of the process under which the hook ran that the current record comes from. -/
def origin (L : List (Record World Op)) : Option Str := L.foldl originStep none

/-- A process with this identity runs. -/
def Alive (m : Machine) (identity : Str) : Prop := ∃ pid, m.processIdentity pid = some identity

/-- The process of the stored owner does not come back once it is gone. -/
def NoReturn (t : Step World Op) : Prop := ∀ c, t.pre.store.keys.config = some c →
  Alive t.post.machine c.ownerIdentity → Alive t.pre.machine c.ownerIdentity

/-- The states of delivery that rest on the evidence of a hook. -/
def DeliveryState.observed : DeliveryState → Bool
  | .activeHooks | .idleWakeEnabled | .idleLiveOnly => true
  | _ => false

lemma observed_seen {k : Meta} (h : (deliveryState k).observed = true) : k.hookSeen ≠ none := by
  intro hnone
  have hl : lifecycleObserved k = false := by simp [lifecycleObserved,hnone]
  unfold deliveryState at h
  simp only [hl,Bool.false_eq_true,not_false_eq_true,if_true] at h
  split_ifs at h <;> cases h

/-! What a start knows of the owner and of the evidence. -/

/-- The identity of the owner that the configuration names. -/
def Meta.owner (k : Meta) : Option Str := k.config.map (·.ownerIdentity)

/-- What a process has found last, if it has looked: the stored owner, and the record of the last
hook. -/
structure Insight where
  owner : Option (Option Str) := none
  seen : Option (Option HookSeen) := none

def Insight.step (n : Insight) (t : Step World Op) : Insight :=
  match t.label with
  | .look .config | .key (.enroll ..) => { n with owner := some t.pre.store.keys.owner }
  | .key (.putConfig c) => { n with owner := some (some c.ownerIdentity) }
  | .look .hookSeen => { n with seen := some t.pre.store.keys.hookSeen }
  | .key (.changeOwner true) => { n with seen := some none }
  | .key (.seedLifecycle ..) => { n with seen := none }
  | _ => n

def insight (past : List (Step World Op)) : Insight := past.foldl Insight.step {}

lemma insight_append (past : List (Step World Op)) (t : Step World Op) :
    insight (past ++ [t]) = (insight past).step t := by
  rw [insight,List.foldl_append]
  rfl

/-- The access tells a start nothing of the two and writes neither. -/
def Op.offOwner : Op → Bool
  | .look .config | .look .hookSeen | .outside _ => false
  | l => MetaKey.config ∉ l.writes && MetaKey.hookSeen ∉ l.writes

lemma offOwner_writes {l : Op} (h : l.offOwner = true) :
    MetaKey.config ∉ l.writes ∧ MetaKey.hookSeen ∉ l.writes := by
  cases l with
  | look what => exact ⟨List.not_mem_nil,List.not_mem_nil⟩
  | outside m => cases h
  | _ => simpa only [Op.offOwner,Bool.and_eq_true,decide_eq_true_eq] using h

lemma Insight.step_off {n : Insight} {t : Step World Op} (h : t.label.offOwner = true) :
    n.step t = n := by
  obtain ⟨l,s⟩ := t
  cases l with
  | look what => cases what <;> first | rfl | cases h
  | key op => cases op <;> first | rfl | cases h
  | _ => rfl

/-- Which owner a start may name with its insight: the stored one, or one whose evidence is all that
it has found. -/
def MayName (n : Insight) (identity : Str) : Prop := ∃ o, n.owner = some o ∧
  ∀ old, o = some old → old ≠ identity →
    ∃ found, n.seen = some found ∧ ∀ seen, found = some seen → seen.ownerIdentity = some identity

/-- A start names a new owner knowing that the record it has found is the new owner's, carries a
saved hook over to the owner that it knows, and never writes a whole configuration back. A hook
records itself after it has found a configuration. -/
def Informed (past : List (Step World Op)) (t : Step World Op) : Prop :=
  match t.label with
  | .key (.putConfig c) => MayName (insight past) c.ownerIdentity
  | .key (.seedLifecycle _ saved) => (insight past).owner = some (some saved.ownerIdentity)
  | .key (.putHookSeen _) => ∃ st ∈ past, st.pre.store.keys.owner ≠ none
  | .key (.stopBridge _) | .outside _ => False
  | _ => True

/-- The process has the same insight as before. -/
def Unmoved {α : Type} (n : Insight) (past : List (Step World Op)) (_ : α) : Prop := insight past = n

lemma unmoved_of_emits {α : Type} {p : Code α} (hp : p.Emits fun l => l.offOwner = true)
    {n : Insight} {past : List (Step World Op)} (h : insight past = n) :
    p.Traced Informed (Unmoved n) past := by
  refine Prog.Traced.of_emits (K := fun u => insight u = n) hp ?_ h
  intro u l s hu hl
  constructor
  · cases l with
    | key op => cases op <;> trivial
    | _ => trivial
  · rw [insight_append,Insight.step_off hl]
    exact hu

lemma insight_off {past : List (Step World Op)} {n : Insight} {l : Op} (h : insight past = n)
    (hl : l.offOwner = true) (s : World) : insight (past ++ [⟨l,s⟩]) = n := by
  rw [insight_append,Insight.step_off hl]
  exact h

/-! A hook. -/

lemma deliver_informed (payload : HookPayload) :
    (PeerChat.deliver payload).Traced Informed (fun _ _ => True) [] := by
  -- what follows the look at the configuration
  have hafter : ∀ {α : Type} {p : Code α} {past : List (Step World Op)},
      p.Emits (fun l => l.ofHook = true) → (∃ st ∈ past, st.pre.store.keys.owner ≠ none) →
      p.Traced Informed (fun _ _ => True) past := by
    intro α p past hp hpast
    refine (Prog.Traced.of_emits (K := fun u => ∃ st ∈ u, st.pre.store.keys.owner ≠ none) hp ?_
      hpast).imp fun _ _ _ => trivial
    rintro u l s ⟨st,hst,hs⟩ hl
    refine ⟨?_,st,List.mem_append_left _ hst,hs⟩
    cases l with
    | key op => cases op <;> first | trivial | exact ⟨st,hst,hs⟩
    | _ => trivial
  have hhook := deliver_ofHook payload
  simp only [PeerChat.deliver] at hhook ⊢
  split_ifs at hhook ⊢ with hvalid
  · trivial
  · refine fun s => ⟨trivial,fun s₁ => ⟨trivial,?_⟩⟩
    have hrest := (hhook.2 s).2 s₁
    simp only [Prog.bind] at hrest ⊢
    split at hrest
    · trivial
    · rename_i config hconfig
      refine hafter hrest ⟨⟨.look .config,s₁⟩,by simp,?_⟩
      simp [Meta.owner,hconfig]

/-! A start. -/

/-- A start that has named an owner, or knows none, may name it again. -/
lemma MayName.again {n : Insight} {identity : Str}
    (h : n.owner = some (some identity) ∨ n.owner = some none) : MayName n identity := by
  rcases h with h | h
  · exact ⟨_,h,fun old hold hne => absurd (Option.some.inj hold).symm hne⟩
  · exact ⟨_,h,by rintro old ⟨⟩⟩

/-- The transaction for a changed owner leaves at most evidence of the new one. -/
lemma writeOwner_informed (previous : Option Config) (identity : Str)
    {past : List (Step World Op)}
    (h : (insight past).owner = some (previous.map (·.ownerIdentity))) :
    (writeOwner previous identity).Traced Informed
      (fun u _ => MayName (insight u) identity) past := by
  cases previous with
  | none => exact ⟨_,h,by rintro old ⟨⟩⟩
  | some c =>
    simp only [writeOwner]
    split_ifs with hsame
    · exact MayName.again (Or.inl (hsame ▸ h))
    · refine fun s => ⟨trivial,fun s₁ => ⟨trivial,?_⟩⟩
      change MayName (insight _) identity
      rw [insight_append,insight_append]
      cases hforget : decide (s.store.keys.hookSeen.bind (·.ownerIdentity) ≠ some identity) with
      | true => exact ⟨_,h,fun _ _ _ => ⟨none,rfl,by rintro seen ⟨⟩⟩⟩
      | false =>
        refine ⟨_,h,fun _ _ _ => ⟨s.store.keys.hookSeen,rfl,fun seen hseen => ?_⟩⟩
        rw [hseen] at hforget
        exact not_not.mp (of_decide_eq_false hforget)

lemma writePeers_informed (requested : Option (Str × PeerRecord)) (config : Config)
    {past : List (Step World Op)}
    (h : (insight past).owner = some (some config.ownerIdentity)) :
    (writePeers requested config).Traced Informed (fun _ _ => True) past := by
  refine Prog.Traced.bind (P := fun u c => (insight u).owner = some (some c.ownerIdentity) ∨
    (insight u).owner = some none) ?_ fun u c hu => ?_
  · cases requested with
    | none =>
      refine fun s => ⟨trivial,fun s₁ => ⟨MayName.again (Or.inl ?_),Or.inl ?_⟩⟩
      · rw [insight_off (l := .look .machine) rfl rfl]
        exact h
      · rw [insight_append]
        rfl
    | some requested =>
      refine fun s => ⟨trivial,?_⟩
      change _ = _ ∨ _ = _
      rw [insight_append]
      -- the transaction finds the stored owner
      cases hc : s.store.keys.config with
      | none =>
        right
        simp [Insight.step,Meta.owner,hc]
      | some c =>
        left
        simp [Insight.step,Meta.owner,hc,PeerChat.enroll,Config.withTable]
  · split_ifs
    · trivial
    · refine fun s => ⟨trivial,fun s₁ => ⟨MayName.again ?_,trivial⟩⟩
      rw [insight_off (l := .look .machine) rfl rfl]
      exact hu

lemma seedSavedHook_informed (past : List (Step World Op)) :
    seedSavedHook.Traced Informed (fun _ _ => True) past := by
  refine fun s => ⟨trivial,?_⟩
  simp only [Prog.bind]
  split
  · trivial
  · rename_i config hconfig
    refine fun s₁ => ⟨trivial,?_⟩
    simp only [Prog.bind]
    split
    · trivial
    · rename_i saved hsaved
      refine fun s₂ => ⟨?_,trivial⟩
      have hsame : saved.ownerIdentity = config.ownerIdentity := by
        simp only [savedEvidence] at hsaved
        split at hsaved
        · cases hsaved
        · split_ifs at hsaved with hchecks
          cases hsaved
          exact hchecks.2.2.2.1
      change (insight _).owner = _
      rw [insight_off (l := .look .machine) rfl rfl,insight_append,hsame]
      simp [Insight.step,Meta.owner,hconfig]

lemma writeBridge_informed (args : StartArgs) (previous : Option Config)
    (requested : Option (Str × PeerRecord)) (config : Config) (runtime : Option Runtime)
    (live : Bool) {past : List (Step World Op)}
    (h : (insight past).owner = some (previous.map (·.ownerIdentity))) :
    (writeBridge args previous requested config runtime live).Traced Informed
      (fun _ _ => True) past := by
  have hoff : ∀ {α : Type} {p : Code α} (u : List (Step World Op)),
      p.Emits (fun l => l.offOwner = true) → p.Traced Informed (fun _ _ => True) u :=
    fun u hp => (unmoved_of_emits hp rfl).imp fun _ _ _ => trivial
  refine (writeOwner_informed previous config.ownerIdentity h).bind fun u _ hu => ?_
  refine fun s => ⟨hu,?_⟩
  have hnamed : (insight (u ++ [⟨.key (.putConfig config),s⟩])).owner =
      some (some config.ownerIdentity) := by
    rw [insight_append]
    rfl
  refine Prog.Traced.bind (p := writePeers requested config) (writePeers_informed requested config hnamed)
    fun u _ _ => ?_
  refine Prog.Traced.bind (hoff u (writeMode_emits (fun _ => rfl) args previous)) fun u _ _ => ?_
  refine Prog.Traced.bind (hoff u (writeWindow_emits (fun key _ => by cases key <;> rfl) args previous))
    fun u _ _ => ?_
  refine (seedSavedHook_informed u).bind fun u _ _ => ?_
  exact hoff u (replaceListener_emits (P := fun l => l.offOwner = true) rfl (fun _ => rfl) runtime live)

lemma startChecked_informed (args : StartArgs) (previous : Option Config)
    {past : List (Step World Op)}
    (h : (insight past).owner = some (previous.map (·.ownerIdentity))) :
    (startChecked args previous).Traced Informed (fun _ _ => True) past := by
  have hlook : ∀ {u : List (Step World Op)} (what : Look) (s : World),
      (Op.look what).offOwner = true →
      (insight u).owner = some (previous.map (·.ownerIdentity)) →
      (insight (u ++ [⟨.look what,s⟩])).owner = some (previous.map (·.ownerIdentity)) := by
    intro u what s hoff hu
    rw [insight_off rfl hoff]
    exact hu
  refine fun s => ⟨trivial,?_⟩
  have h₁ := hlook .machine s rfl h
  simp only [Prog.bind]
  split
  · trivial
  · refine fun s₁ => ⟨trivial,fun s₂ => ⟨trivial,?_⟩⟩
    have h₂ := hlook .machine s₂ rfl (hlook .runtime s₁ rfl h₁)
    simp only [Prog.bind]
    split_ifs
    · trivial
    · split
      · split
        · trivial
        · exact writeBridge_informed _ _ _ _ _ _ h₂
      · trivial

lemma startBridge_informed (args : StartArgs) :
    (startBridge args).Traced Informed (fun _ _ => True) [] := by
  refine fun s => ⟨trivial,?_⟩
  simp only [Prog.bind]
  split_ifs
  · refine fun s₁ => ⟨trivial,?_⟩
    simp only [Prog.bind]
    split_ifs
    · trivial
    · refine startChecked_informed args _ ?_
      rw [insight_off (l := .look .stop) rfl rfl]
      rfl
  · exact startChecked_informed args _ rfl

lemma owners_informed (p : OwnerProcess) : (owners.code p).Traced Informed (fun _ _ => True) [] := by
  cases p with
  | deliver payload => exact (deliver_informed payload).bind fun _ _ _ => trivial
  | start args => exact (startBridge_informed args).bind fun _ _ _ => trivial

/-- The rights of a start. -/
def startRights : Rights := { setup := true, checks := true, starts := true }

/-- What a start does, and what a hook does. -/
def OwnerOp : Bool → Op → Prop
  | true, l => Made startRights l
  | false, l => l.ofHook = true

lemma owners_emits (p : OwnerProcess) : (owners.code p).Emits (OwnerOp (owners.exclusive p)) := by
  cases p with
  | deliver payload => exact (deliver_ofHook payload).bind fun _ => trivial
  | start args =>
    exact (startBridge_made (ρ := startRights) rfl rfl rfl args).bind fun _ => trivial

/-! What one access does to the owner and to the evidence. -/

lemma owner_kept {l : Op} {w : World} (hl : MetaKey.config ∉ l.writes) :
    (apply l w).store.keys.owner = w.store.keys.owner := by
  have hsame : MetaKey.config.Same w.store.keys (apply l w).store.keys := apply_frame l w hl
  change (apply l w).store.keys.config = _ at hsame
  rw [Meta.owner,hsame]
  rfl

lemma seen_kept {l : Op} {w : World} (hl : MetaKey.hookSeen ∉ l.writes) :
    (apply l w).store.keys.hookSeen = w.store.keys.hookSeen := by
  have hsame : MetaKey.hookSeen.Same w.store.keys (apply l w).store.keys := apply_frame l w hl
  exact hsame

lemma ofHook_inside {l : Op} (h : l.ofHook = true) : l.isOutside = false := by
  cases l with
  | outside m => cases h
  | _ => rfl

/-- A hook writes the record, or nothing of the two. -/
lemma hook_cases {l : Op} (hl : l.ofHook = true) : (∃ seen, l = .key (.putHookSeen seen)) ∨
    l.offOwner = true ∨ l = .look .config := by
  cases l with
  | key op => cases op <;> first | exact Or.inl ⟨_,rfl⟩ | exact Or.inr (Or.inl rfl) | cases hl
  | look what => cases what <;> first | exact Or.inr (Or.inr rfl) | exact Or.inr (Or.inl rfl) | cases hl
  | inbox op => exact Or.inr (Or.inl (by cases op <;> rfl))
  | _ => cases hl

/-- A start names an owner, carries a saved hook over, deletes the record, or leaves the stored owner
and the record. -/
lemma start_cases {l : Op} {past : List (Step World Op)} {w : World} (hl : Made startRights l)
    (hinf : Informed past ⟨l,w⟩) : (∃ c, l = .key (.putConfig c)) ∨
    (∃ identity saved, l = .key (.seedLifecycle identity saved)) ∨
    (∃ forget, l = .key (.changeOwner forget)) ∨
    ((apply l w).store.keys.owner = w.store.keys.owner ∧
      (apply l w).store.keys.hookSeen = w.store.keys.hookSeen) := by
  have hoff : MetaKey.config ∉ l.writes → MetaKey.hookSeen ∉ l.writes →
      (apply l w).store.keys.owner = w.store.keys.owner ∧
      (apply l w).store.keys.hookSeen = w.store.keys.hookSeen :=
    fun hc hs => ⟨owner_kept hc,seen_kept hs⟩
  cases l with
  | key op =>
    cases op with
    | putConfig c => exact Or.inl ⟨c,rfl⟩
    | seedLifecycle identity saved => exact Or.inr (Or.inl ⟨identity,saved,rfl⟩)
    | changeOwner forget => exact Or.inr (Or.inr (Or.inl ⟨forget,rfl⟩))
    | stopBridge read => exact hinf.elim
    | putHookSeen seen => cases hl.1
    | enroll key record =>
      refine Or.inr (Or.inr (Or.inr ⟨?_,seen_kept (by simp [Op.writes,KeyOp.writes])⟩))
      change Option.map _ (Option.map _ _) = _
      rw [Option.map_map]
      rfl
    | setDefaultPeer key =>
      refine Or.inr (Or.inr (Or.inr ⟨?_,seen_kept (by simp [Op.writes,KeyOp.writes])⟩))
      change Option.map _ (Option.map _ _) = _
      rw [Option.map_map]
      rfl
    | setSupervision =>
      refine Or.inr (Or.inr (Or.inr ⟨?_,seen_kept (by simp [Op.writes,KeyOp.writes])⟩))
      rw [apply_key_keys]
      simp only [KeyOp.apply,PeerChat.setSupervision]
      split_ifs
      · rfl
      · change Option.map _ (Option.map _ _) = _
        rw [Option.map_map]
        rfl
    | configureDelivery mode budget =>
      cases budget <;> exact Or.inr (Or.inr (Or.inr
        (hoff (by simp [Op.writes,KeyOp.writes,windowKeys]) (by simp [Op.writes,KeyOp.writes,windowKeys]))))
    | putBudget key value =>
      cases key <;> exact Or.inr (Or.inr (Or.inr
        (hoff (by simp [Op.writes,KeyOp.writes,BudgetKey.metaKey]) (by simp [Op.writes,KeyOp.writes,BudgetKey.metaKey]))))
    | _ => exact Or.inr (Or.inr (Or.inr
        (hoff (by simp [Op.writes,KeyOp.writes,wakeKeys]) (by simp [Op.writes,KeyOp.writes,wakeKeys]))))
  | inbox op =>
    cases op <;> exact Or.inr (Or.inr (Or.inr (hoff (by simp [Op.writes]) (by simp [Op.writes]))))
  | _ => exact Or.inr (Or.inr (Or.inr (hoff (by simp [Op.writes]) (by simp [Op.writes]))))

/-- Once an owner is named, there is one. -/
lemma owner_named {e : Bool} {l : Op} {past : List (Step World Op)} {w : World} (hl : OwnerOp e l)
    (hinf : Informed past ⟨l,w⟩) (h : w.store.keys.owner ≠ none) :
    (apply l w).store.keys.owner ≠ none := by
  cases e with
  | false =>
    rcases hook_cases hl with ⟨seen,rfl⟩ | hoff | rfl
    · exact h
    · rw [owner_kept (offOwner_writes hoff).1]
      exact h
    · exact h
  | true =>
    rcases start_cases hl hinf with ⟨c,rfl⟩ | ⟨identity,saved,rfl⟩ | ⟨forget,rfl⟩ | ⟨howner,-⟩
    · rintro ⟨⟩
    · rw [owner_kept (by simp [Op.writes,KeyOp.writes])]
      exact h
    · exact h
    · rw [howner]
      exact h

/-! What holds in a run, and survives each access. -/

/-- The record that is there is the stored owner's, where this owner is alive. -/
structure Owned (w : World) : Prop where
  fresh : w.store.keys.owner = none → w.store.keys.hookSeen = none
  owned : ∀ identity, w.store.keys.owner = some identity → Alive w.machine identity →
    ∀ seen, w.store.keys.hookSeen = some seen → seen.ownerIdentity = some identity

lemma Owned.congr {w w' : World} (h : Owned w) (howner : w'.store.keys.owner = w.store.keys.owner)
    (hseen : w'.store.keys.hookSeen = w.store.keys.hookSeen)
    (hm : ∀ identity, w.store.keys.owner = some identity → Alive w'.machine identity →
      Alive w.machine identity) : Owned w' := by
  refine ⟨?_,?_⟩
  · rw [howner,hseen]
    exact h.fresh
  · rw [howner,hseen]
    exact fun identity ho ha => h.owned identity ho (hm identity ho ha)

/-- What a start knows still holds, but for hooks that have recorded themselves since: the last one
is `late`. -/
structure Insight.Holds (n : Insight) (late : Option (Option Str)) (k : Meta) : Prop where
  owner : ∀ o, n.owner = some o → k.owner = o
  seen : ∀ found, n.seen = some found → ∀ seen, k.hookSeen = some seen →
    found = some seen ∨ late = some seen.ownerIdentity

lemma Insight.holds_init (late : Option (Option Str)) (k : Meta) : Insight.Holds {} late k :=
  ⟨by rintro o ⟨⟩,by rintro found ⟨⟩⟩

/-- The identity under which the hook ran that has recorded itself last, since a start has looked at
the record or deleted it. -/
def lateStep (late : Option (Option Str)) (r : Record World Op) : Option (Option Str) :=
  match r.step.label with
  | .look .hookSeen | .key (.changeOwner true) => none
  | .key (.putHookSeen _) => some (ranUnder r.before)
  | _ => late

/-- A hook records the process it runs under, which is that of the stored owner if this one is alive;
and where a start names a new owner that is alive, no hook of another process has recorded itself since
the start has looked. -/
def InTime (late : Option (Option Str)) (r : Record World Op) : Prop :=
  match r.step.label with
  | .key (.putHookSeen seen) => seen.ownerIdentity = ranUnder r.before ∧
      ∀ identity, r.step.pre.store.keys.owner = some identity →
        Alive r.step.pre.machine identity → ranUnder r.before = some identity
  | .key (.putConfig c) => r.step.pre.store.keys.owner ≠ some c.ownerIdentity →
      Alive r.step.pre.machine c.ownerIdentity → ∀ o ∈ late, o = some c.ownerIdentity
  | _ => True

section
variable {late : Option (Option Str)} {r : Record World Op} {n : Insight}

/-- An access of a hook. -/
lemma Owned.hook (h : Owned r.step.pre) (hl : r.step.label.ofHook = true) (hin : InTime late r)
    (hinf : Informed r.before r.step)
    (hconfig : ∀ st ∈ r.before, st.pre.store.keys.owner ≠ none → r.step.pre.store.keys.owner ≠ none) :
    Owned r.step.post := by
  obtain ⟨process,before,l,w⟩ := r
  rcases hook_cases hl with ⟨seen,rfl⟩ | hoff | rfl
  · obtain ⟨st,hst,hne⟩ := hinf
    refine ⟨fun hnone => absurd hnone (hconfig st hst hne),?_⟩
    rintro identity howner halive _ ⟨⟩
    exact hin.1.trans (hin.2 identity howner halive)
  · obtain ⟨hc,hs⟩ := offOwner_writes hoff
    have hm : (apply l w).machine = w.machine := apply_machine (ofHook_inside hl) w
    refine h.congr (owner_kept hc) (seen_kept hs) fun identity _ ha => ?_
    change Alive (apply l w).machine identity at ha
    rwa [hm] at ha
  · exact h

/-- What a start knows, an access of a hook leaves, or the hook is late. -/
lemma Insight.Holds.hook (h : n.Holds late r.step.pre.store.keys) (hl : r.step.label.ofHook = true)
    (hin : InTime late r) : n.Holds (lateStep late r) r.step.post.store.keys := by
  obtain ⟨process,before,l,w⟩ := r
  rcases hook_cases hl with ⟨seen,rfl⟩ | hoff | rfl
  · refine ⟨h.owner,?_⟩
    rintro found - _ ⟨⟩
    exact Or.inr (congrArg some hin.1.symm)
  · obtain ⟨hc,hs⟩ := offOwner_writes hoff
    have hlate : lateStep late ⟨process,before,l,w⟩ = late := by
      cases l with
      | look what => cases what <;> first | rfl | cases hoff
      | key op => cases op <;> first | rfl | cases hoff
      | _ => rfl
    have howner : (apply l w).store.keys.owner = w.store.keys.owner := owner_kept hc
    have hseen : (apply l w).store.keys.hookSeen = w.store.keys.hookSeen := seen_kept hs
    rw [hlate]
    refine ⟨?_,?_⟩
    · intro o ho
      exact howner.trans (h.owner o ho)
    · intro found hf seen hs'
      exact h.seen found hf seen (hseen.symm.trans hs')
  · exact h

/-- An access of a start. -/
lemma Owned.start (h : Owned r.step.pre) (hl : Made startRights r.step.label) (hin : InTime late r)
    (hinf : Informed r.before r.step)
    (hn : (insight r.before).Holds late r.step.pre.store.keys) : Owned r.step.post := by
  obtain ⟨process,before,l,w⟩ := r
  have hinside : l.isOutside = false := by
    cases l with
    | outside m => exact hinf.elim
    | _ => rfl
  have hm : (apply l w).machine = w.machine := apply_machine hinside w
  rcases start_cases hl hinf with ⟨c,rfl⟩ | ⟨identity,saved,rfl⟩ | ⟨forget,rfl⟩ | ⟨howner,hseen⟩
  · obtain ⟨o,ho,hnew⟩ := hinf
    have howner : w.store.keys.owner = o := hn.owner o ho
    refine ⟨by rintro ⟨⟩,?_⟩
    rintro _ ⟨⟩ halive seen hseen
    change w.store.keys.hookSeen = some seen at hseen
    cases o with
    | none =>
      rw [h.fresh howner] at hseen
      cases hseen
    | some old =>
      by_cases hold : old = c.ownerIdentity
      · exact h.owned _ (howner.trans (congrArg some hold)) halive seen hseen
      · obtain ⟨found,hfound,hsame⟩ := hnew old rfl hold
        rcases hn.seen found hfound seen hseen with hf | hlate
        · exact hsame seen hf
        · refine hin ?_ halive _ hlate
          rw [howner]
          exact fun he => hold (Option.some.inj he)
  · have howner : w.store.keys.owner = some saved.ownerIdentity := hn.owner _ hinf
    by_cases hnewer : newerEvidence identity saved.time w.store.keys = true
    · have hkeys : (apply (Op.key (.seedLifecycle identity saved)) w).store.keys = w.store.keys := by
        change seedLifecycle identity saved w.store.keys = w.store.keys
        rw [seedLifecycle,if_pos hnewer]
      exact h.congr (congrArg Meta.owner hkeys) (congrArg (·.hookSeen) hkeys) fun _ _ ha => ha
    · have hseen : (apply (Op.key (.seedLifecycle identity saved)) w).store.keys.hookSeen =
          some ⟨saved.time,saved.event,saved.turn,.matched,some saved.ownerIdentity⟩ := by
        change (seedLifecycle identity saved w.store.keys).hookSeen = _
        rw [seedLifecycle,if_neg hnewer]
      have hkept : (apply (Op.key (.seedLifecycle identity saved)) w).store.keys.owner =
          some saved.ownerIdentity := (owner_kept (by simp [Op.writes,KeyOp.writes])).trans howner
      refine ⟨fun hnone => absurd (hkept.symm.trans hnone) (by simp),fun I hI _ seen hs => ?_⟩
      obtain rfl : saved.ownerIdentity = I := Option.some.inj (hkept.symm.trans hI)
      obtain rfl := Option.some.inj (hseen.symm.trans hs)
      rfl
  · cases forget with
    | false => exact ⟨h.fresh,h.owned⟩
    | true => exact ⟨fun _ => rfl,by rintro identity - - seen ⟨⟩⟩
  · refine h.congr howner hseen fun identity _ ha => ?_
    change Alive (apply l w).machine identity at ha
    rwa [hm] at ha

/-- What a start knows after its own access. -/
lemma Insight.Holds.start (h : n.Holds late r.step.pre.store.keys)
    (hl : Made startRights r.step.label) (hinf : Informed r.before r.step) :
    (n.step r.step).Holds (lateStep late r) r.step.post.store.keys := by
  obtain ⟨process,before,l,w⟩ := r
  -- an access that tells the start nothing
  have hkeep : (apply l w).store.keys.owner = w.store.keys.owner →
      (apply l w).store.keys.hookSeen = w.store.keys.hookSeen →
      n.Holds late (apply l w).store.keys := by
    intro howner hseen
    exact ⟨fun o ho => howner.trans (h.owner o ho),
      fun found hf seen hs => h.seen found hf seen (hseen.symm.trans hs)⟩
  rcases start_cases hl hinf with ⟨c,rfl⟩ | ⟨identity,saved,rfl⟩ | ⟨forget,rfl⟩ | ⟨howner,hseen⟩
  · exact ⟨by rintro _ ⟨⟩; rfl,h.seen⟩
  · refine ⟨fun o ho => ?_,by rintro found ⟨⟩⟩
    have hkept : (apply (Op.key (.seedLifecycle identity saved)) w).store.keys.owner =
        w.store.keys.owner := owner_kept (by simp [Op.writes,KeyOp.writes])
    exact hkept.trans (h.owner o ho)
  · cases forget with
    | false => exact ⟨h.owner,h.seen⟩
    | true => exact ⟨h.owner,by rintro found - seen ⟨⟩⟩
  · have hkept := hkeep howner hseen
    cases l with
    | look what =>
      cases what with
      | config => exact ⟨by rintro _ ⟨⟩; rfl,h.seen⟩
      | hookSeen => exact ⟨h.owner,by rintro _ ⟨⟩ seen hs; exact Or.inl hs⟩
      | _ => exact hkept
    | key op =>
      cases op with
      | enroll key record => exact ⟨by rintro _ ⟨⟩; exact howner,hkept.seen⟩
      | putConfig c => exact ⟨by rintro _ ⟨⟩; rfl,h.seen⟩
      | seedLifecycle identity saved => exact ⟨hkept.owner,by rintro found ⟨⟩⟩
      | putHookSeen seen => cases hl.1
      | changeOwner forget =>
        cases forget with
        | false => exact hkept
        | true => exact ⟨h.owner,by rintro found - seen ⟨⟩⟩
      | _ => exact hkept
    | _ => exact hkept

end

/-! Runs. -/

/-- Every hook of a run is in time. -/
def AllInTime : Option (Option Str) → List (Record World Op) → Prop
  | _, [] => True
  | late, r::L => InTime late r ∧ AllInTime (lateStep late r) L

/-- What holds between two accesses: of the store, of what each process has found, and of the start
that holds the lock. -/
structure Attributed (late : Option (Option Str)) (c : Pool World Op)
    (past : ℕ → List (Step World Op)) : Prop where
  safe : c.Safe (fun _ => True) (fun _ _ _ => True) fun e _ l => OwnerOp e l
  known : System.Known Informed (fun _ _ => True) c past
  configured : ∀ i, ∀ t ∈ past i, t.pre.store.keys.owner ≠ none → c.state.store.keys.owner ≠ none
  holder : ∀ i p, c.procs i = some (true,p) →
    (insight (past i)).Holds late c.state.store.keys
  owned : Owned c.state

lemma owners_sound : owners.Sound (fun _ => True) (fun _ _ _ => True) fun e _ l => OwnerOp e l :=
  System.Sound.emits owners_emits

/-- A process at its next access makes one of its own. -/
lemma Attributed.op {late : Option (Option Str)} {c : Pool World Op} {past : ℕ → List (Step World Op)}
    (h : Attributed late c past) {i : ℕ} {e : Bool} {l : Op} {next : World → Prog World Op Unit}
    (hi : c.procs i = some (e,.act l next)) : OwnerOp e l ∧ Informed (past i) ⟨l,c.state⟩ := by
  obtain ⟨-,P,-,hP,hsat⟩ := h.safe.2 i e _ hi
  have hk := h.known i
  rw [hi] at hk
  exact ⟨(hsat c.state trivial hP).1,(hk c.state).1⟩

/-- Only one start is at work. -/
lemma Attributed.alone {late : Option (Option Str)} {c : Pool World Op}
    {past : ℕ → List (Step World Op)} (h : Attributed late c past) {i j : ℕ} {p q : Prog World Op Unit}
    (hi : c.procs i = some (true,p)) (hj : c.procs j = some (true,q)) : i = j :=
  Option.some.inj (((h.safe.2 i true p hi).1 rfl).symm.trans ((h.safe.2 j true q hj).1 rfl))

/-- An access of a process, and what every process then has found. -/
lemma Attributed.access {late : Option (Option Str)} {c : Pool World Op}
    {past : ℕ → List (Step World Op)} (h : Attributed late c past) {i : ℕ} {e : Bool} {l : Op}
    {next : World → Prog World Op Unit} (hi : c.procs i = some (e,.act l next))
    (hin : InTime late ⟨some i,past i,l,c.state⟩) :
    Owned (apply l c.state) ∧
    (∀ j q, j ≠ i → c.procs j = some (true,q) →
      (insight (past j)).Holds (lateStep late ⟨some i,past i,l,c.state⟩) (apply l c.state).store.keys) ∧
    (e = true → (insight (past i ++ [⟨l,c.state⟩])).Holds
      (lateStep late ⟨some i,past i,l,c.state⟩) (apply l c.state).store.keys) := by
  obtain ⟨hop,hinf⟩ := h.op hi
  cases e with
  | false =>
    refine ⟨Owned.hook (r := ⟨some i,past i,l,c.state⟩) h.owned hop hin hinf (h.configured i),?_,
      by rintro ⟨⟩⟩
    intro j q hj hq
    exact Insight.Holds.hook (r := ⟨some i,past i,l,c.state⟩) (h.holder j q hq) hop hin
  | true =>
    have hholds := h.holder i _ hi
    refine ⟨Owned.start (r := ⟨some i,past i,l,c.state⟩) h.owned hop hin hinf hholds,?_,fun _ => ?_⟩
    · exact fun j q hj hq => absurd (h.alone hq hi) hj
    · rw [insight_append]
      exact Insight.Holds.start (r := ⟨some i,past i,l,c.state⟩) hholds hop hinf

lemma Attributed.next {late : Option (Option Str)} {c : Pool World Op}
    {past : ℕ → List (Step World Op)} (h : Attributed late c past) {e : Event OwnerProcess Op}
    (hin : ∀ r ∈ owners.record c past e, InTime late r)
    (hreturn : ∀ t ∈ (owners.next c e).1, NoReturn t) :
    Attributed ((owners.record c past e).elim late (lateStep late)) (owners.next c e).2
      (pastOf past e (owners.next c e).1) := by
  have hsafe := (owners_sound.next_safe h.safe e).1
  have hknown := (h.known.next (S := owners) owners_informed e).1
  cases e with
  | start i p =>
    by_cases hstart : (c.procs i).isNone ∧ owners.allowed p c.state ∧
        (owners.exclusive p → c.lock.isNone)
    · have hi : past i = [] := by
        have := h.known i
        rwa [Option.isNone_iff_eq_none.mp hstart.1] at this
      simp only [System.record,System.next,if_pos hstart,Option.map_none,pastOf] at hsafe hknown ⊢
      refine ⟨hsafe,hknown,h.configured,?_,h.owned⟩
      intro j q hj
      by_cases hij : j = i
      · rw [hij,hi]
        exact Insight.holds_init ..
      · exact h.holder j q (by simpa only [Function.update_of_ne hij] using hj)
    · simp only [System.record,System.next,if_neg hstart,Option.map_none,pastOf] at hsafe hknown ⊢
      exact h
  | crash i =>
    refine ⟨hsafe,hknown,?_,?_,h.owned⟩
    · intro j t ht
      by_cases hij : j = i
      · rw [hij] at ht
        simp [pastOf] at ht
      · exact h.configured j t (by simpa only [pastOf,Function.update_of_ne hij] using ht)
    · intro j q hj
      by_cases hij : j = i
      · rw [hij] at hj
        simp [System.next] at hj
      · have hpast : pastOf past (.crash i : Event OwnerProcess Op) none j = past j :=
          Function.update_of_ne hij ..
        have hproc : c.procs j = some (true,q) := by
          simpa only [System.next,Function.update_of_ne hij] using hj
        exact hpast ▸ h.holder j q hproc
  | outside l =>
    by_cases hout : owners.outside l = true
    · simp only [System.record,System.next,if_pos hout,pastOf] at hsafe hknown hreturn ⊢
      cases l with
      | outside m =>
        refine ⟨hsafe,hknown,h.configured,h.holder,h.owned.congr rfl rfl fun identity howner ha => ?_⟩
        obtain ⟨cfg,hcfg,rfl⟩ := Option.map_eq_some_iff.mp howner
        exact hreturn _ rfl cfg hcfg ha
      | _ => cases hout
    · simp only [System.record,System.next,if_neg hout,pastOf] at hsafe hknown ⊢
      exact h
  | step i =>
    rcases owners.next_step c i with ⟨e,l,next,hi,hn⟩ | hn
    · simp only [System.record,hn,Option.map_some,pastOf,Event.actor,Option.getD_some] at hsafe hknown hin ⊢
      have hin' : InTime late ⟨some i,past i,l,c.state⟩ := hin _ rfl
      obtain ⟨howned,hothers,hown⟩ := h.access hi hin'
      obtain ⟨hop,hinf⟩ := h.op hi
      refine ⟨hsafe,hknown,?_,?_,howned⟩
      · intro j t ht hne
        by_cases hij : j = i
        · rw [hij,Function.update_self] at ht
          rcases List.mem_append.mp ht with ht | ht
          · exact owner_named hop hinf (h.configured i t ht hne)
          · obtain rfl := List.mem_singleton.mp ht
            exact owner_named hop hinf hne
        · rw [Function.update_of_ne hij] at ht
          exact owner_named hop hinf (h.configured j t ht hne)
      · intro j q hj
        change Function.update c.procs i (some (e,next c.state)) j = some (true,q) at hj
        by_cases hij : j = i
        · rw [hij,Function.update_self] at hj ⊢
          exact hown (by cases hj; rfl)
        · rw [Function.update_of_ne hij] at hj ⊢
          exact hothers j q hij hj
    · simp only [System.record,hn,Option.map_none,pastOf] at hsafe hknown ⊢
      exact h

lemma Attributed.run (es : List (Event OwnerProcess Op)) {late : Option (Option Str)}
    {c : Pool World Op} {past : ℕ → List (Step World Op)} (h : Attributed late c past)
    (hin : AllInTime late (owners.logFrom c past es))
    (hreturn : ∀ t ∈ owners.trace c es, NoReturn t) :
    ∃ late', Attributed late' (owners.final c es) (owners.pasts c past es) := by
  induction es generalizing late c past with
  | nil => exact ⟨late,h⟩
  | cons e es ih =>
    have hnow : ∀ t ∈ (owners.next c e).1, NoReturn t := fun t ht =>
      hreturn t (List.mem_append_left _ (by simpa using ht))
    have hlater : ∀ t ∈ owners.trace (owners.next c e).2 es, NoReturn t := fun t ht =>
      hreturn t (List.mem_append_right _ ht)
    rw [System.logFrom] at hin
    cases hrec : owners.record c past e with
    | none =>
      rw [hrec] at hin
      have hnext := h.next (e := e) (by rw [hrec]; rintro r ⟨⟩) hnow
      rw [hrec] at hnext
      exact ih hnext hin hlater
    | some r =>
      rw [hrec] at hin
      have hnext := h.next (e := e) (by rw [hrec]; rintro _ ⟨⟩; exact hin.1) hnow
      rw [hrec] at hnext
      exact ih hnext hin.2 hlater

/-- The current record bears the identity under which its hook ran. -/
def Borne (o : Option Str) (k : Meta) : Prop := ∀ seen, k.hookSeen = some seen → o = seen.ownerIdentity

lemma Borne.next {late : Option (Option Str)} {r : Record World Op} {o : Option Str}
    (h : Borne o r.step.pre.store.keys) (hin : InTime late r) :
    Borne (originStep o r) r.step.post.store.keys := by
  obtain ⟨process,before,l,w⟩ := r
  have hkeep : MetaKey.hookSeen ∉ l.writes → Borne o (apply l w).store.keys := by
    intro hl seen hs
    exact h seen ((seen_kept hl).symm.trans hs)
  cases l with
  | key op =>
    cases op with
    | putHookSeen seen =>
      rintro _ ⟨⟩
      exact hin.1.symm
    | seedLifecycle identity saved =>
      change Borne (if newerEvidence identity saved.time w.store.keys then o else some saved.ownerIdentity)
        (seedLifecycle identity saved w.store.keys)
      rw [seedLifecycle]
      split_ifs
      · exact h
      · rintro _ ⟨⟩
        rfl
      · rintro _ ⟨⟩
        rfl
    | changeOwner forget =>
      cases forget with
      | false => exact h
      | true => rintro seen ⟨⟩
    | configureDelivery mode budget =>
      cases budget <;> exact hkeep (by simp [Op.writes,KeyOp.writes,windowKeys])
    | putBudget key value =>
      cases key <;> exact hkeep (by simp [Op.writes,KeyOp.writes,BudgetKey.metaKey])
    | _ => exact hkeep (by simp [Op.writes,KeyOp.writes,wakeKeys])
  | inbox op => cases op <;> exact hkeep (by simp [Op.writes])
  | _ => exact hkeep (by simp [Op.writes])

lemma Borne.run (es : List (Event OwnerProcess Op)) {late : Option (Option Str)} {o : Option Str}
    {c : Pool World Op} {past : ℕ → List (Step World Op)} (h : Borne o c.state.store.keys)
    (hin : AllInTime late (owners.logFrom c past es)) :
    Borne ((owners.logFrom c past es).foldl originStep o) (owners.final c es).state.store.keys := by
  induction es generalizing late o c past with
  | nil => exact h
  | cons e es ih =>
    rw [System.logFrom] at hin ⊢
    rcases owners.next_cases c e with ⟨hn,hs⟩ | ⟨l,hn,hs⟩
    · have hrec : owners.record c past e = none := by rw [System.record,hn]; rfl
      rw [hrec] at hin ⊢
      exact ih (hs.symm ▸ h) hin
    · have hrec : owners.record c past e = some ⟨e.actor,(e.actor.map past).getD [],l,c.state⟩ := by
        rw [System.record,hn]
        rfl
      rw [hrec] at hin ⊢
      refine ih ?_ hin.2
      rw [hs]
      exact Borne.next (r := ⟨e.actor,(e.actor.map past).getD [],l,c.state⟩) h hin.1

/-- In every run of hooks and starts, among exits of processes, from a store without a hook's record: if
every hook is in time, then wherever the configuration names an owner that is alive and the reported
state rests on a hook, this hook ran under the owner, or was saved by one that did. -/
theorem evidence_bound {w : World} (es : List (Event OwnerProcess Op))
    (hw : w.store.keys.hookSeen = none)
    (hreturn : ∀ t ∈ owners.trace (.idle w) es, NoReturn t)
    (hin : AllInTime none (owners.log w es)) :
    ∀ c, (owners.final (.idle w) es).state.store.keys.config = some c →
      ownerLive (owners.final (.idle w) es).state.machine c = true →
      (deliveryState (owners.final (.idle w) es).state.store.keys).observed = true →
      origin (owners.log w es) = some c.ownerIdentity := by
  have hstart : Attributed none (.idle w) fun _ => [] :=
    ⟨Pool.idle_safe trivial,System.known_idle w,by rintro i t ⟨⟩,by rintro i p ⟨⟩,
      ⟨fun _ => hw,fun _ _ _ seen hs => by cases hw.symm.trans hs⟩⟩
  obtain ⟨late,hfinal⟩ := hstart.run es hin hreturn
  have hborne : Borne (origin (owners.log w es)) (owners.final (.idle w) es).state.store.keys :=
    Borne.run es (fun seen hs => by cases hw.symm.trans hs) hin
  intro c hc hlive hstate
  obtain ⟨seen,hseen⟩ := Option.ne_none_iff_exists'.mp (observed_seen hstate)
  rw [hborne seen hseen]
  have howner : (owners.final (.idle w) es).state.store.keys.owner = some c.ownerIdentity := by
    rw [Meta.owner,hc]
    rfl
  refine hfinal.owned.owned _ howner ⟨c.ownerPid,?_⟩ seen hseen
  simpa [ownerLive] using hlive

/-! One owner, and a hook that outlives its owner. -/

/-- In a run in which hooks and starts name one owner only, every hook is in time. -/
def OneOwner (identity : Str) (r : Record World Op) : Bool :=
  match r.step.label with
  | .key (.putHookSeen seen) => seen.ownerIdentity = some identity && ranUnder r.before = some identity &&
      r.step.pre.store.keys.owner = some identity
  | .key (.putConfig c) => c.ownerIdentity = identity
  | _ => true

lemma allInTime_of_oneOwner {identity : Str} {L : List (Record World Op)}
    (h : L.all (OneOwner identity) = true) {late : Option (Option Str)}
    (hlate : ∀ o ∈ late, o = some identity) : AllInTime late L := by
  induction L generalizing late with
  | nil => trivial
  | cons r L ih =>
    rw [List.all_cons,Bool.and_eq_true] at h
    obtain ⟨hr,hL⟩ := h
    obtain ⟨process,before,l,w⟩ := r
    have hrest : (∀ o ∈ lateStep late ⟨process,before,l,w⟩, o = some identity) →
        AllInTime (lateStep late ⟨process,before,l,w⟩) L := fun h => ih hL h
    cases l with
    | key op =>
      cases op with
      | putHookSeen seen =>
        simp only [OneOwner,Bool.and_eq_true,decide_eq_true_eq] at hr
        obtain ⟨⟨hseen,hran⟩,howner⟩ := hr
        refine ⟨⟨hseen.trans hran.symm,fun I hI _ => ?_⟩,hrest ?_⟩
        · exact hran.trans (howner.symm.trans hI)
        · rintro o ⟨⟩
          exact hran
      | putConfig c =>
        simp only [OneOwner,decide_eq_true_eq] at hr
        refine ⟨fun _ _ o ho => ?_,hrest hlate⟩
        rw [hr]
        exact hlate o ho
      | changeOwner forget =>
        cases forget with
        | false => exact ⟨trivial,hrest hlate⟩
        | true => exact ⟨trivial,hrest (by rintro o ⟨⟩)⟩
      | _ => exact ⟨trivial,hrest hlate⟩
    | look what =>
      cases what with
      | hookSeen => exact ⟨trivial,hrest (by rintro o ⟨⟩)⟩
      | _ => exact ⟨trivial,hrest hlate⟩
    | _ => exact ⟨trivial,hrest hlate⟩

/-- The owner runs above the hooks. -/
def ownerMachine : Machine := { hookMachine with hookOwner := some 7 }

/-- The owner has exited, and a new one runs the session. -/
def resumedMachine : Machine := { hookMachine with
  processIdentity := fun pid =>
    if pid = 41 then some (str "41:9") else if pid = 8 then some (str "8:1") else none
  hookOwner := some 8 }

/-- A start enrolls a peer in the mode `live`; a hook of a tool use looks at the machine and at the
configuration. -/
def firstLooks : List (Event OwnerProcess Op) :=
  .start 0 (.start {
    thread := sampleId.text
    ownerPid := some 7
    requested := some (.ok samplePeer)
    delivery := some .live
    socket := str "/run/own.sock" }) :: List.replicate 20 (.step 0) ++
  .start 1 (.deliver sampleToolUse) :: List.replicate 3 (.step 1)

/-- The hook goes on. -/
def sameOwnerRun : List (Event OwnerProcess Op) := firstLooks ++ List.replicate 8 (.step 1)

/-- The owner exits, and a start names the new one, before the hook goes on. -/
def resumedRun : List (Event OwnerProcess Op) :=
  firstLooks ++ .crash 0 :: .outside (.outside resumedMachine) ::
    .start 2 (.start { thread := sampleId.text, ownerPid := some 8 }) ::
    List.replicate 20 (.step 2) ++ List.replicate 8 (.step 1)

lemma noReturn_of_inside {t : Step World Op} (h : t.label.isOutside = false) : NoReturn t := by
  intro c _ ha
  have hm : t.post.machine = t.pre.machine := apply_machine h t.pre
  rwa [hm] at ha

theorem evidence_bound_sample : ∃ c,
    (owners.final (.idle (.new ownerMachine)) sameOwnerRun).state.store.keys.config = some c ∧
      origin (owners.log (.new ownerMachine) sameOwnerRun) = some c.ownerIdentity := by
  have hinside : (owners.trace (.idle (.new ownerMachine)) sameOwnerRun).all
      (fun t => ¬ t.label.isOutside) = true := by decide +kernel
  have hone : (owners.log (.new ownerMachine) sameOwnerRun).all (OneOwner (str "7:1")) = true := by
    decide +kernel
  have hconfig : (owners.final (.idle (.new ownerMachine)) sameOwnerRun).state.store.keys.config.any
      (ownerLive (owners.final (.idle (.new ownerMachine)) sameOwnerRun).state.machine) = true := by
    decide +kernel
  obtain ⟨c,hc,hlive⟩ := (Option.any_eq_true _ _).mp hconfig
  refine ⟨c,hc,evidence_bound sameOwnerRun rfl (fun t ht => noReturn_of_inside ?_)
    (allInTime_of_oneOwner hone (by rintro o ⟨⟩)) c hc hlive (by decide +kernel)⟩
  simpa using List.all_eq_true.mp hinside t ht

/-- The hook of the old owner is evidence for the new one. -/
theorem evidence_transferred : ¬ ∀ (m : Machine) (es : List (Event OwnerProcess Op)) (c : Config),
    (owners.final (.idle (.new m)) es).state.store.keys.config = some c →
      ownerLive (owners.final (.idle (.new m)) es).state.machine c = true →
      (deliveryState (owners.final (.idle (.new m)) es).state.store.keys).observed = true →
      origin (owners.log (.new m) es) = some c.ownerIdentity := by
  intro h
  have hconfig : (owners.final (.idle (.new ownerMachine)) resumedRun).state.store.keys.config.any
      (fun c => c.ownerIdentity = str "8:1" &&
        ownerLive (owners.final (.idle (.new ownerMachine)) resumedRun).state.machine c) = true := by
    decide +kernel
  obtain ⟨c,hc,hnamed⟩ := (Option.any_eq_true _ _).mp hconfig
  rw [Bool.and_eq_true,decide_eq_true_eq] at hnamed
  have hbound := h ownerMachine resumedRun c hc hnamed.2 (by decide +kernel)
  have horigin : origin (owners.log (.new ownerMachine) resumedRun) = some (str "7:1") := by
    decide +kernel
  rw [horigin,hnamed.1] at hbound
  exact absurd hbound (by decide)

end PeerChat
