import PeerChat.Hooks.Evidence

/-! Reconciliation beside hooks. It looks at the phase and the last hook, reads the end of a turn from
the rollout, and corrects the phase in a transaction that checks them again; hooks meanwhile record
themselves first and set the phase later. -/
namespace PeerChat
open Python Wire Interleaving

/-- A hook, or a reconciliation by a listener with this configuration. -/
inductive TurnTask
  | hook (payload : HookPayload)
  | reconcile (config : Config)

def TurnTask.code : TurnTask → Code Unit
  | .hook payload => deliver payload >>= fun _ => .ret ()
  | .reconcile config => reconcileTurn config

/-- Any number of both, on a machine that may change. -/
def reconciling : System TurnTask World Op where
  code := TurnTask.code
  exclusive _ := false
  allowed _ _ := true
  outside := Op.isOutside

/-! The transaction. -/

/-- What has been found before still holds. -/
def Finding.holds (m : Machine) (f : Finding) (k : Meta) : Bool :=
  ¬ (k.stop ∨ k.phase ≠ some f.phase ∨ k.config ≠ some f.config ∨ k.hookSeen ≠ some f.seen ∨
    turnEndEvidence m f.config f.seen ≠ some f.evidence)

/-- The evidence that an access commits. -/
def committedEnd (t : Step World Op) : Option TurnEnd :=
  match t.label with
  | .key (.reconcile f) =>
    if f.holds t.pre.machine t.pre.store.keys then some f.evidence else none
  | _ => none

lemma reconcile_holds {m : Machine} {f : Finding} {k : Meta} (h : f.holds m k = true) :
    reconcile m f k =
      { k with phase := some (endPhase f.evidence), lifecycleReconciled := some f.evidence } := by
  unfold reconcile
  rw [if_neg (by simpa only [Finding.holds,decide_eq_true_eq] using h)]

lemma reconcile_fails {m : Machine} {f : Finding} {k : Meta} (h : f.holds m k = false) :
    reconcile m f k = k := by
  unfold reconcile
  rw [if_pos (by simpa only [Finding.holds,decide_eq_false_iff_not,not_not] using h)]

lemma turnEndEvidence_turn {m : Machine} {config : Config} {seen : HookSeen} {evidence : TurnEnd}
    (h : turnEndEvidence m config seen = some evidence) : seen.turn = some evidence.turn := by
  unfold turnEndEvidence at h
  split at h
  · rename_i turn ending hturn _
    dsimp only at h
    split_ifs at h
    cases h
    exact hturn
  · cases h

/-- A commit rests on the last hook. -/
lemma committedEnd_turn {t : Step World Op} {evidence : TurnEnd}
    (h : committedEnd t = some evidence) :
    ∃ seen, t.pre.store.keys.hookSeen = some seen ∧ seen.turn = some evidence.turn := by
  obtain ⟨l,w⟩ := t
  cases l with
  | key op =>
    cases op with
    | reconcile f =>
      simp only [committedEnd] at h
      split_ifs at h with hholds
      cases h
      simp only [Finding.holds,decide_eq_true_eq,not_or,not_not] at hholds
      obtain ⟨-,-,-,hseen,hend⟩ := hholds
      exact ⟨f.seen,hseen,turnEndEvidence_turn hend⟩
    | _ => cases h
  | _ => cases h

/-- What an access of a reconciliation changes: the two keys, or nothing. -/
def CorrectsOrKeeps (t : Step World Op) : Prop :=
  (committedEnd t = none ∧ t.post = t.pre) ∨
  ∃ evidence, committedEnd t = some evidence ∧
    t.post = { t.pre with store := t.pre.store.setKeys fun k =>
      { k with phase := some (endPhase evidence), lifecycleReconciled := some evidence } }

def Op.reconciles : Op → Bool
  | .look _ | .key (.reconcile _) => true
  | _ => false

lemma correctsOrKeeps {t : Step World Op} (h : t.label.reconciles = true) : CorrectsOrKeeps t := by
  obtain ⟨l,w⟩ := t
  cases l with
  | look what => exact Or.inl ⟨rfl,rfl⟩
  | key op =>
    cases op with
    | reconcile f =>
      cases hholds : f.holds w.machine w.store.keys with
      | true =>
        right
        refine ⟨f.evidence,by simp [committedEnd,hholds],?_⟩
        have hkeys := reconcile_holds hholds
        change { w with store := { w.store with keys := reconcile w.machine f w.store.keys } } = _
        rw [hkeys]
        rfl
      | false =>
        left
        refine ⟨by simp [committedEnd,hholds],?_⟩
        have hkeys := reconcile_fails hholds
        change { w with store := { w.store with keys := reconcile w.machine f w.store.keys } } = _
        rw [hkeys]
    | _ => cases h
  | _ => cases h

lemma reconcileTurn_reconciles (config : Config) :
    (reconcileTurn config).Emits fun l => l.reconciles = true :=
  reconcileTurn_emits (fun _ _ => rfl) (fun _ => rfl) config

/-! One hook sets the phase after it has recorded itself. -/

/-- Every record that the steps make is followed by a phase. -/
def Followed (ts : List (Step World Op)) : Prop :=
  ∀ us t vs, ts = us ++ t :: vs → (seenEvent t.label).isSome = true →
    vs.any (·.label.putsPhase) = true

lemma followed_nil : Followed [] := by
  intro us t vs h
  simp at h

/-- The last step of a list lies behind every other one, or is the one. -/
lemma cut_snoc {ts us vs : List (Step World Op)} {x t : Step World Op} (h : ts ++ [x] = us ++ t :: vs) :
    (vs = [] ∧ t = x) ∨ ∃ vs', vs = vs' ++ [x] ∧ ts = us ++ t :: vs' := by
  cases vs using List.reverseRecOn with
  | nil =>
    obtain ⟨-,hx⟩ := List.append_inj' h rfl
    exact Or.inl ⟨rfl,(List.singleton_inj.mp hx).symm⟩
  | append_singleton vs' y =>
    rw [← List.cons_append,← List.append_assoc] at h
    obtain ⟨hts,hy⟩ := List.append_inj' h rfl
    obtain rfl := List.singleton_inj.mp hy
    exact Or.inr ⟨vs',rfl,hts⟩

lemma Followed.snoc {ts : List (Step World Op)} (h : Followed ts) {t : Step World Op}
    (ht : seenEvent t.label = none) : Followed (ts ++ [t]) := by
  intro us x vs hcut hx
  rcases cut_snoc hcut with ⟨-,rfl⟩ | ⟨vs',rfl,hts⟩
  · rw [ht] at hx
    cases hx
  · rw [List.any_append,h us x vs' hts hx]
    rfl

lemma phase_unseen {l : Op} (h : l.putsPhase = true) : seenEvent l = none := by
  cases l with
  | key op => cases op <;> first | rfl | cases h
  | _ => rfl

lemma followed_phase (ts : List (Step World Op)) {t : Step World Op} (h : t.label.putsPhase = true) :
    Followed (ts ++ [t]) := by
  intro us x vs hcut hx
  rcases cut_snoc hcut with ⟨-,rfl⟩ | ⟨vs',rfl,-⟩
  · rw [phase_unseen h] at hx
    cases hx
  · simp [h]

/-- A part of a program that records nothing. -/
lemma unseen_traced {α : Type} {p : Code α} (hp : p.Emits fun l => seenEvent l = none)
    {past : List (Step World Op)} (h : Followed past) :
    p.Traced (fun _ _ => True) (fun u _ => Followed u) past :=
  Prog.Traced.of_emits hp (fun _ _ _ hu hl => ⟨trivial,hu.snoc hl⟩) h

lemma deliverRouted_followed (config : Config) (payload : HookPayload) (past : List (Step World Op)) :
    (deliverRouted config payload).Traced (fun _ _ => True) (fun u _ => Followed u) past := by
  refine Prog.Traced.bind (Prog.Traced.extends (renewWindow payload) past) fun u _ _ => ?_
  intro w
  refine ⟨trivial,?_⟩
  have hdecide : (decideWake payload).Emits fun l => seenEvent l = none := decideWake_emits rfl
  refine Prog.Traced.bind (p := decideWake payload) (unseen_traced hdecide (followed_phase u rfl))
    fun v _ hv => ?_
  split_ifs
  · exact hv
  · have hhand : (handOver config).Emits fun l => seenEvent l = none :=
      handOver_emits rfl fun _ => rfl
    exact unseen_traced hhand hv

lemma deliver_followed (payload : HookPayload) :
    (deliver payload).Traced (fun _ _ => True) (fun u _ => Followed u) [] := by
  unfold deliver
  split_ifs
  · exact followed_nil
  · have hread : ∀ {β : Type} (what : Look) (f : World → β),
        (read what f).Emits fun l => seenEvent l = none := fun what f => ⟨rfl,fun _ => trivial⟩
    refine Prog.Traced.bind (unseen_traced (hread _ _) followed_nil) fun u registration hu => ?_
    refine Prog.Traced.bind (unseen_traced (hread _ _) hu) fun u config hu => ?_
    split
    · exact hu
    · rename_i config
      refine Prog.Traced.bind (unseen_traced (hread _ _) hu) fun u m hu => ?_
      split
      · refine Prog.Traced.bind (Prog.Traced.extends (emit _) u) fun v _ _ => ?_
        exact deliverRouted_followed config payload v
      · refine Prog.Traced.bind (unseen_traced (emit_emits rfl) hu) fun v _ hv => ?_
        split_ifs
        · exact deliverRouted_followed config payload v
        · exact hv

/-- What every process does: a reconciliation has accesses of its own, a hook sets the phase of the
event that it has recorded. -/
def Turning (past : List (Step World Op)) (t : Step World Op) : Prop :=
  t.label.reconciles = true ∨ Faithful past t

lemma reconciling_traced (task : TurnTask) :
    (reconciling.code task).Traced Turning (fun u _ => Followed u) [] := by
  cases task with
  | hook payload =>
    have hturning : (deliver payload).Traced Turning (fun _ _ => True) [] :=
      ((deliver_traced payload).weaken fun _ _ h => Or.inr h).imp fun _ _ _ => trivial
    have hboth := hturning.and (deliver_followed payload)
    refine Prog.Traced.bind (p := deliver payload) (hboth.weaken fun _ _ h => h.1) ?_
    intro u _ hu
    exact hu.2
  | reconcile config =>
    have hemits : (reconcileTurn config).Emits fun l => l.reconciles = true :=
      reconcileTurn_reconciles config
    refine Prog.Traced.of_emits (K := Followed) hemits (fun u l w hu hl => ⟨Or.inl hl,?_⟩) followed_nil
    refine hu.snoc ?_
    cases l with
    | key op => cases op <;> first | rfl | cases hl
    | _ => rfl

/-! The phase after the last hook has recorded itself. -/

/-- What an access does after the last record: it sets the phase of a hook, or leaves the phase. -/
def SetsOrLeaves (r : Record World Op) : Prop :=
  (∃ e, r.step.label = .key (.putPhase (eventPhase e)) ∧ lastSeenEvent r.before = some e) ∨
  (r.step.label.putsPhase = false ∧
    r.step.post.store.keys.phase = r.step.pre.store.keys.phase)

lemma phase_after {w : World} {L : List (Record World Op)} {ls : List Op}
    (hL : L.map (·.step) = stepsOf w ls) (hr : ∀ r ∈ L, SetsOrLeaves r) :
    ∀ e, lastPhaseEvent L = some e → (after w ls).store.keys.phase = some (eventPhase e) := by
  induction L using List.reverseRecOn generalizing ls with
  | nil => rintro e ⟨⟩
  | append_singleton L r ih =>
    cases ls using List.reverseRecOn with
    | nil => simp [stepsOf] at hL
    | append_singleton ls l =>
      rw [stepsOf_append,List.map_append] at hL
      obtain ⟨hL,hstep⟩ := List.append_inj' hL rfl
      have hstep : r.step = ⟨l,after w ls⟩ := by simpa [stepsOf] using hstep
      have hphase := ih hL fun r hr' => hr r (List.mem_append_left _ hr')
      have hpost : r.step.post = after w (ls ++ [l]) := by
        rw [Interleaving.after_append,hstep]
        rfl
      rw [← hpost,lastPhaseEvent_append]
      intro e' he'
      rcases hr r (by simp) with ⟨e,hl,he⟩ | ⟨hputs,hleaves⟩
      · have hkeys : r.step.post.store.keys.phase = some (eventPhase e) := by
          change (apply r.step.label r.step.pre).store.keys.phase = _
          rw [hl]
          rfl
        rw [if_pos (by rw [hl]; rfl),he] at he'
        cases he'
        exact hkeys
      · rw [if_neg (by simp [hputs])] at he'
        rw [hleaves,hstep]
        exact hphase e' he'

/-- The last phase of a list is that of its last part, if there is one. -/
lemma lastPhaseEvent_concat (L M : List (Record World Op))
    (hM : ∀ r ∈ M, r.step.label.putsPhase = true → (lastSeenEvent r.before).isSome = true) :
    lastPhaseEvent (L ++ M) = (lastPhaseEvent M).or (lastPhaseEvent L) := by
  induction M using List.reverseRecOn with
  | nil => simp [lastPhaseEvent]
  | append_singleton M r ih =>
    have ih := ih fun r hr => hM r (List.mem_append_left _ hr)
    rw [← List.append_assoc,lastPhaseEvent_append,lastPhaseEvent_append]
    split_ifs with hputs
    · obtain ⟨e,he⟩ := Option.isSome_iff_exists.mp (hM r (by simp) hputs)
      rw [he]
      rfl
    · exact ih

lemma exists_lastPhaseEvent {L : List (Record World Op)}
    (hL : ∀ r ∈ L, r.step.label.putsPhase = true → (lastSeenEvent r.before).isSome = true)
    (h : ∃ r ∈ L, r.step.label.putsPhase = true) : ∃ e, lastPhaseEvent L = some e := by
  obtain ⟨r,hr,hputs⟩ := h
  obtain ⟨M,N,rfl⟩ := List.append_of_mem hr
  obtain ⟨e,he⟩ := Option.isSome_iff_exists.mp (hL r hr hputs)
  have hsplit : lastPhaseEvent (M ++ r :: N) = (lastPhaseEvent N).or (some e) := by
    rw [List.append_cons,lastPhaseEvent_concat (M ++ [r]) N fun r hr => hL r (by simp [hr]),
      lastPhaseEvent_append,if_pos hputs,he]
  rw [hsplit]
  cases lastPhaseEvent N with
  | none => exact ⟨e,rfl⟩
  | some e' => exact ⟨e',rfl⟩

lemma lastSeenEvent_unseen (ts us : List (Step World Op))
    (h : ∀ t ∈ us, seenEvent t.label = none) : lastSeenEvent (ts ++ us) = lastSeenEvent ts := by
  induction us using List.reverseRecOn with
  | nil => rw [List.append_nil]
  | append_singleton us t ih =>
    rw [← List.append_assoc,lastSeenEvent_append,h t (by simp),
      ih fun t ht => h t (List.mem_append_left _ ht)]
    rfl

lemma eventPhase_eq_iff (e e' : HookEvent) : eventPhase e = eventPhase e' ↔ e.idle = e'.idle := by
  unfold eventPhase
  cases e.idle <;> cases e'.idle <;> simp

/-! Runs. -/

section
variable {w : World} {es : List (Event TurnTask Op)}

lemma reconciling_explained (w : World) (es : List (Event TurnTask Op)) :
    ∀ r ∈ reconciling.log w es, reconciling.Explained Turning r :=
  (System.log_explained (S := reconciling) reconciling_traced es
    (System.known_idle (G := Turning) (Q := fun u _ => Followed u) w)).2

lemma leaves_same {t : Step World Op} (h : t.label.leavesEvidence = true) :
    t.post.store.keys.phase = t.pre.store.keys.phase ∧
      t.post.store.keys.hookSeen = t.pre.store.keys.hookSeen := by
  simp only [Op.leavesEvidence,Bool.and_eq_true,decide_eq_true_eq] at h
  have hp : MetaKey.phase.Same t.pre.store.keys t.post.store.keys := apply_frame t.label _ h.1
  have hs : MetaKey.hookSeen.Same t.pre.store.keys t.post.store.keys := apply_frame t.label _ h.2
  exact ⟨hp,hs⟩

/-- The accesses of a run, besides the records of hooks. -/
lemma turning_cases (hpass : ∀ t ∈ reconciling.trace (.idle w) es, t.label.rejectsHook = false)
    {r : Record World Op} (hr : r ∈ reconciling.log w es) (hunseen : seenEvent r.step.label = none) :
    (r.step.label.reconciles = true ∧ r.step.label.putsPhase = false) ∨
    (∃ e, r.step.label = .key (.putPhase (eventPhase e)) ∧ lastSeenEvent r.before = some e) ∨
    r.step.label.leavesEvidence = true := by
  have hexp := reconciling_explained w es r hr
  cases hi : r.process with
  | none =>
    simp only [System.Explained,hi] at hexp
    have hout : r.step.label.isOutside = true := hexp
    revert hout
    cases r.step.label <;> first | exact fun _ => Or.inr (Or.inr rfl) | rintro ⟨⟩
  | some i =>
    simp only [System.Explained,hi] at hexp
    rcases hexp with hrec | hfaithful
    · refine Or.inl ⟨hrec,?_⟩
      revert hrec
      cases r.step.label with
      | key op => cases op <;> first | exact fun _ => rfl | rintro ⟨⟩
      | _ => exact fun _ => rfl
    · right
      obtain ⟨process,past,l,v⟩ := r
      cases l with
      | key op =>
        cases op with
        | putHookSeen seen' => cases hunseen
        | putPhase phase =>
          rcases hfaithful with ⟨st,hst,hreject⟩ | ⟨e,he,rfl⟩
          · rw [hpass st (System.before_mem hr hi hst)] at hreject
            cases hreject
          · exact Or.inl ⟨e,rfl,he⟩
        | _ => exact Or.inr hfaithful
      | _ => exact Or.inr hfaithful

/-- Only a hook's record writes `hook_seen`. -/
lemma record_stays (hpass : ∀ t ∈ reconciling.trace (.idle w) es, t.label.rejectsHook = false)
    {r : Record World Op} (hr : r ∈ reconciling.log w es) (hunseen : seenEvent r.step.label = none) :
    r.step.post.store.keys.hookSeen = r.step.pre.store.keys.hookSeen := by
  rcases turning_cases hpass hr hunseen with ⟨hrec,-⟩ | ⟨e,hl,-⟩ | hleaves
  · rcases correctsOrKeeps hrec with ⟨-,hpost⟩ | ⟨evidence,-,hpost⟩
    · rw [hpost]
    · rw [hpost]
      rfl
  · change (apply r.step.label r.step.pre).store.keys.hookSeen = _
    rw [hl]
    rfl
  · exact (leaves_same hleaves).2

/-- After the last record, where no commit is about its turn. -/
lemma setsOrLeaves (hpass : ∀ t ∈ reconciling.trace (.idle w) es, t.label.rejectsHook = false)
    {seen : HookSeen} {r : Record World Op} (hr : r ∈ reconciling.log w es)
    (hunseen : seenEvent r.step.label = none) (hpre : r.step.pre.store.keys.hookSeen = some seen)
    (hdiffer : ∀ evidence, committedEnd r.step = some evidence → seen.turn ≠ some evidence.turn) :
    SetsOrLeaves r := by
  rcases turning_cases hpass hr hunseen with ⟨hrec,hputs⟩ | hputs | hleaves
  · right
    refine ⟨hputs,?_⟩
    rcases correctsOrKeeps hrec with ⟨-,hpost⟩ | ⟨evidence,hcommit,-⟩
    · rw [hpost]
    · obtain ⟨seen',hseen',hturn⟩ := committedEnd_turn hcommit
      rw [hpre,Option.some.injEq] at hseen'
      exact absurd (hseen' ▸ hturn) (hdiffer evidence hcommit)
  · exact Or.inl hputs
  · exact Or.inr ⟨(leaves_seen hleaves).2,(leaves_same hleaves).1⟩

/-- A hook that has recorded itself and has ended has set the phase after that. -/
lemma record_followed (hcrash : ∀ j, .crash j ∉ es)
    (hdone : ∀ i b p, (reconciling.final (.idle w) es).procs i = some (b,p) → p.isDone = true)
    {L₁ L₂ : List (Record World Op)} {r : Record World Op}
    (hlog : reconciling.log w es = L₁ ++ r :: L₂) (hr : (seenEvent r.step.label).isSome = true) :
    ∃ r ∈ L₂, r.step.label.putsPhase = true := by
  have hexp := reconciling_explained w es r (by simp [hlog])
  obtain ⟨i,hi⟩ : ∃ i, r.process = some i := by
    refine hook_of_write (fun hnone => ?_) (Or.inl hr)
    simp only [System.Explained,hnone] at hexp
    exact hexp
  have hknown := (System.log_explained (S := reconciling) reconciling_traced es
    (System.known_idle (G := Turning) (Q := fun u _ => Followed u) w)).1 i
  have hpast : reconciling.pasts (.idle w) (fun _ => []) es i =
      (recordsOf i L₁).map (·.step) ++ r.step :: (recordsOf i L₂).map (·.step) := by
    have hall := reconciling.pasts_eq hcrash (.idle w) (fun _ => []) i
    change _ = (recordsOf i (reconciling.log w es)).map (·.step) at hall
    rw [hall,hlog,System.recordsOf_append,List.map_append]
    have hcons : recordsOf i (r::L₂) = r :: recordsOf i L₂ :=
      List.filter_cons_of_pos (by simp [hi])
    rw [hcons,List.map_cons]
  rw [hpast] at hknown
  cases hproc : (reconciling.final (.idle w) es).procs i with
  | none =>
    rw [hproc] at hknown
    simp at hknown
  | some q =>
    obtain ⟨b,p⟩ := q
    rw [hproc] at hknown
    have hended := hdone i b p hproc
    cases p with
    | act l next => cases hended
    | ret a =>
      have hany := hknown _ _ _ rfl hr
      obtain ⟨st,hst,hputs⟩ := List.any_eq_true.mp hany
      obtain ⟨r',hr',rfl⟩ := List.mem_map.mp hst
      exact ⟨r',List.mem_of_mem_filter hr',hputs⟩

/-- The last record of a hook. -/
lemma exists_last_record {L : List (Record World Op)}
    (h : ∃ r ∈ L, (seenEvent r.step.label).isSome = true) : ∃ L₁ r L₂ seen, L = L₁ ++ r :: L₂ ∧
      r.step.label = .key (.putHookSeen seen) ∧ ∀ r ∈ L₂, seenEvent r.step.label = none := by
  induction L with
  | nil => simp at h
  | cons r L ih =>
    by_cases hlater : ∃ r ∈ L, (seenEvent r.step.label).isSome = true
    · obtain ⟨L₁,r',L₂,seen,hL,hr'⟩ := ih hlater
      exact ⟨r::L₁,r',L₂,seen,by rw [hL]; rfl,hr'⟩
    · have hr : (seenEvent r.step.label).isSome = true := by
        obtain ⟨r',hr',hsome⟩ := h
        rcases List.mem_cons.mp hr' with rfl | hr'
        · exact hsome
        · exact absurd ⟨r',hr',hsome⟩ hlater
      obtain ⟨seen,hseen⟩ : ∃ seen, r.step.label = .key (.putHookSeen seen) := by
        revert hr
        cases r.step.label with
        | key op =>
          cases op with
          | putHookSeen seen => exact fun _ => ⟨seen,rfl⟩
          | _ => rintro ⟨⟩
        | _ => rintro ⟨⟩
      refine ⟨[],r,L,seen,rfl,hseen,fun r' hr' => ?_⟩
      cases hs : seenEvent r'.step.label with
      | none => rfl
      | some e => exact absurd ⟨r',hr',by rw [hs]; rfl⟩ hlater

section
variable {L₁ L₂ : List (Record World Op)} {r : Record World Op} {last : HookSeen}
  (hlog : reconciling.log w es = L₁ ++ r :: L₂)

include hlog in
lemma later_mem {r' : Record World Op} (h : r' ∈ L₂) : r' ∈ reconciling.log w es := by
  rw [hlog]
  simp [h]

include hlog in
/-- Nobody else writes the record, so the last one is there to the end. -/
lemma record_to_end (hpass : ∀ t ∈ reconciling.trace (.idle w) es, t.label.rejectsHook = false)
    (hlabel : r.step.label = .key (.putHookSeen last))
    (hunseen : ∀ r ∈ L₂, seenEvent r.step.label = none) :
    ∃ ms, L₂.map (·.step) = stepsOf r.step.post ms ∧
      (reconciling.final (.idle w) es).state = after r.step.post ms ∧
      (∀ r' ∈ L₂, r'.step.pre.store.keys.hookSeen = some last) ∧
      (reconciling.final (.idle w) es).state.store.keys.hookSeen = some last := by
  have hsteps : reconciling.trace (.idle w) es =
      L₁.map (·.step) ++ r.step :: L₂.map (·.step) := by
    rw [← reconciling.log_steps,hlog,List.map_append,List.map_cons]
  obtain ⟨ms,hrest,hend⟩ := System.trace_cut hsteps
  have hstart : r.step.post.store.keys.hookSeen = some last := by
    change (apply r.step.label r.step.pre).store.keys.hookSeen = some last
    rw [hlabel]
    rfl
  have hstays : ∀ t ∈ stepsOf r.step.post ms, t.pre.store.keys.hookSeen = some last →
      t.post.store.keys.hookSeen = some last := by
    intro t ht hpre
    rw [← hrest] at ht
    obtain ⟨r',hr',rfl⟩ := List.mem_map.mp ht
    rw [record_stays hpass (later_mem hlog hr') (hunseen r' hr')]
    exact hpre
  refine ⟨ms,hrest,hend,fun r' hr' => ?_,?_⟩
  · refine steps_invariant (P := fun v : World => v.store.keys.hookSeen = some last) hstart hstays
      r'.step ?_
    rw [← hrest]
    exact List.mem_map_of_mem hr'
  · rw [hend]
    exact steps_induction (P := fun v : World => v.store.keys.hookSeen = some last) hstart hstays

end

/-- Reconciliations beside any number of hooks, in every interleaving. A reconciliation commits only
evidence of the turn of the last hook; and an access of it changes the phase and
`lifecycle_reconciled`, or nothing. Where all hooks pass the routing check and everything has ended,
and the last hook is of another turn than the evidence, the phase is the one that this hook sets
exactly if the hook that sets the phase last has an event of the same kind. -/
theorem newer_turn_kept_iff (w : World) (es : List (Event TurnTask Op)) :
    (∀ config, (reconcileTurn config).Emits fun l => l.reconciles = true) ∧
    (∀ t ∈ reconciling.trace (.idle w) es, t.label.reconciles = true → CorrectsOrKeeps t) ∧
    (∀ t ∈ reconciling.trace (.idle w) es, ∀ evidence, committedEnd t = some evidence →
      ∃ seen, t.pre.store.keys.hookSeen = some seen ∧ seen.turn = some evidence.turn) ∧
    ((∀ j, .crash j ∉ es) →
      (∀ t ∈ reconciling.trace (.idle w) es, t.label.rejectsHook = false) →
      (∀ i b p, (reconciling.final (.idle w) es).procs i = some (b,p) → p.isDone = true) →
      (∃ t ∈ reconciling.trace (.idle w) es, (seenEvent t.label).isSome = true) →
      ∀ seen, (reconciling.final (.idle w) es).state.store.keys.hookSeen = some seen →
        (∀ t ∈ reconciling.trace (.idle w) es, ∀ evidence, committedEnd t = some evidence →
          seen.turn ≠ some evidence.turn) →
        ((reconciling.final (.idle w) es).state.store.keys.phase = some (eventPhase seen.event) ↔
          SameKind (reconciling.log w es))) := by
  refine ⟨reconcileTurn_reconciles,fun t _ h => correctsOrKeeps h,
    fun t _ evidence h => committedEnd_turn h,?_⟩
  intro hcrash hpass hdone hsome seen hfinalSeen hdiffer
  obtain ⟨L₁,r,L₂,last,hlog,hlabel,hunseen⟩ : ∃ L₁ r L₂ seen, reconciling.log w es = L₁ ++ r :: L₂ ∧
      r.step.label = .key (.putHookSeen seen) ∧ ∀ r ∈ L₂, seenEvent r.step.label = none := by
    refine exists_last_record ?_
    obtain ⟨t,ht,hs⟩ := hsome
    rw [← reconciling.log_steps] at ht
    obtain ⟨r,hr,rfl⟩ := List.mem_map.mp ht
    exact ⟨r,hr,hs⟩
  obtain ⟨ms,hrest,hend,hkept,hkeptFinal⟩ := record_to_end hlog hpass hlabel hunseen
  obtain rfl : last = seen := Option.some.inj (hkeptFinal.symm.trans hfinalSeen)
  have hsets : ∀ r' ∈ L₂, SetsOrLeaves r' := by
    intro r' hr'
    have hmem := later_mem hlog hr'
    refine setsOrLeaves hpass hmem (hunseen r' hr') (hkept r' hr') fun evidence hcommit => ?_
    refine hdiffer r'.step ?_ evidence hcommit
    rw [← reconciling.log_steps]
    exact List.mem_map_of_mem hmem
  have hphase := phase_after hrest hsets
  have hfounded : ∀ r' ∈ L₂, r'.step.label.putsPhase = true →
      (lastSeenEvent r'.before).isSome = true := by
    intro r' hr' hputs
    rcases hsets r' hr' with ⟨e,-,he⟩ | ⟨hno,-⟩
    · rw [he]
      rfl
    · rw [hno] at hputs
      cases hputs
  obtain ⟨e,he⟩ := exists_lastPhaseEvent hfounded
    (record_followed hcrash hdone hlog (by rw [hlabel]; rfl))
  have hlast : lastPhaseEvent (reconciling.log w es) = some e := by
    rw [hlog,List.append_cons,lastPhaseEvent_concat _ _ hfounded,he]
    rfl
  have hseen : lastSeenEvent ((reconciling.log w es).map (·.step)) = some last.event := by
    have hnone : ∀ t ∈ L₂.map (·.step), seenEvent t.label = none := by
      intro t ht
      obtain ⟨r',hr',rfl⟩ := List.mem_map.mp ht
      exact hunseen r' hr'
    rw [hlog,List.append_cons,List.map_append,lastSeenEvent_unseen _ _ hnone,List.map_append,
      List.map_cons,List.map_nil,lastSeenEvent_append,hlabel]
    rfl
  rw [hend,hphase e he,Option.some.injEq,eventPhase_eq_iff]
  unfold SameKind
  rw [hseen,hlast]
  constructor
  · intro h e₁ he₁ e₂ he₂
    cases he₁
    cases he₂
    exact h.symm
  · intro h
    exact (h last.event rfl e rfl).symm

end

/-! The end of one turn is reconciled before the hooks of the next. -/

/-- The rollout says that the first turn is over. -/
def endedMachine : Machine := { hookMachine with
  latestEnd := fun _ _ => some ⟨false,some (str "t1"),hookMachine.now⟩ }

def endedWorld : World := after (World.new endedMachine) [Op.key (.putConfig sampleConfig)]

def hookOf (event : HookEvent) (turn : String) : TurnTask :=
  .hook { sampleToolUse with event := event, turn := some (str turn) }

/-- A hook of the first turn runs, and the turn's end is reconciled; the first turn's last hook
records itself; a hook of the second turn runs for `k` accesses; then the two go on. -/
def turnRun (k : ℕ) : List (Event TurnTask Op) :=
  .start 0 (hookOf .postToolUse "t1") :: List.replicate 8 (.step 0) ++
  .start 1 (.reconcile sampleConfig) :: List.replicate 6 (.step 1) ++
  .start 2 (hookOf .stop "t1") :: List.replicate 4 (.step 2) ++
  .start 3 (hookOf .postToolUse "t2") :: List.replicate k (.step 3) ++
  List.replicate 1 (.step 2) ++ List.replicate 8 (.step 3)

lemma turnRun_crash (k j : ℕ) : .crash j ∉ turnRun k := by simp [turnRun]

lemma turnRun_done {k : ℕ} (hk : ∀ i < 4, ((reconciling.final (.idle endedWorld) (turnRun k)).procs i).all
    (fun q => q.2.isDone) = true) (i : ℕ) (b : Bool) (p : Prog World Op Unit)
    (hp : (reconciling.final (.idle endedWorld) (turnRun k)).procs i = some (b,p)) : p.isDone = true := by
  refine reconciling.final_done (fun e he => ?_) hk hp
  simp only [turnRun,List.mem_append,List.mem_cons,List.mem_replicate] at he
  rcases he with ((((((((rfl | ⟨-,rfl⟩) | rfl | ⟨-,rfl⟩) | rfl | ⟨-,rfl⟩) | rfl | ⟨-,rfl⟩) |
    ⟨-,rfl⟩) | ⟨-,rfl⟩))) <;> rfl

/-- The evidence is that of the first turn. -/
lemma turnRun_evidence {k : ℕ} (hk : (reconciling.trace (.idle endedWorld) (turnRun k)).all
    (fun t => (committedEnd t).all (·.turn = str "t1")) = true) {seen : HookSeen}
    (hseen : seen.turn = some (str "t2")) : ∀ t ∈ reconciling.trace (.idle endedWorld) (turnRun k),
    ∀ evidence, committedEnd t = some evidence → seen.turn ≠ some evidence.turn := by
  intro t ht evidence hcommit hturn
  have hfirst := List.all_eq_true.mp hk t ht
  rw [hcommit,Option.all_some,decide_eq_true_eq] at hfirst
  rw [hseen,hfirst] at hturn
  exact absurd (Option.some.inj hturn) (by decide)

/-- The hook of the second turn runs when the others have ended. -/
theorem newer_turn_kept_iff_sample :
    (reconciling.final (.idle endedWorld) (turnRun 0)).state.store.keys.phase = some .active := by
  have hmap : (reconciling.final (.idle endedWorld) (turnRun 0)).state.store.keys.hookSeen.map
      (fun seen => (seen.turn,seen.event)) = some (some (str "t2"),.postToolUse) := by decide +kernel
  obtain ⟨seen,hseen,hboth⟩ := Option.map_eq_some_iff.mp hmap
  obtain ⟨hturn,hevent⟩ := Prod.mk.inj hboth
  have hiff := (newer_turn_kept_iff endedWorld (turnRun 0)).2.2.2 (turnRun_crash 0) (by decide +kernel)
    (turnRun_done (by decide +kernel)) (by decide +kernel) seen hseen
    (turnRun_evidence (by decide +kernel) hturn)
  rw [hevent] at hiff
  exact hiff.mpr (by decide +kernel)

/-- The last hook of the first turn sets the phase when a hook of the second turn, which is the last
one recorded, has set it: the session counts as idle in its second turn. -/
theorem older_turn_sets_phase : ¬ ∀ (w : World) (es : List (Event TurnTask Op)),
    (∀ j, .crash j ∉ es) → (∀ t ∈ reconciling.trace (.idle w) es, t.label.rejectsHook = false) →
    (∀ i b p, (reconciling.final (.idle w) es).procs i = some (b,p) → p.isDone = true) →
    (∃ t ∈ reconciling.trace (.idle w) es, (seenEvent t.label).isSome = true) →
    ∀ seen, (reconciling.final (.idle w) es).state.store.keys.hookSeen = some seen →
      (∀ t ∈ reconciling.trace (.idle w) es, ∀ evidence, committedEnd t = some evidence →
        seen.turn ≠ some evidence.turn) →
      (reconciling.final (.idle w) es).state.store.keys.phase = some (eventPhase seen.event) := by
  intro h
  have hmap : (reconciling.final (.idle endedWorld) (turnRun 8)).state.store.keys.hookSeen.map
      (fun seen => (seen.turn,seen.event)) = some (some (str "t2"),.postToolUse) := by decide +kernel
  obtain ⟨seen,hseen,hboth⟩ := Option.map_eq_some_iff.mp hmap
  obtain ⟨hturn,hevent⟩ := Prod.mk.inj hboth
  have hphase := h endedWorld (turnRun 8) (turnRun_crash 8) (by decide +kernel)
    (turnRun_done (by decide +kernel)) (by decide +kernel) seen hseen
    (turnRun_evidence (by decide +kernel) hturn)
  rw [hevent] at hphase
  revert hphase
  decide +kernel

end PeerChat
