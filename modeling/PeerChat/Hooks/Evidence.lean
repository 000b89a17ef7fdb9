import PeerChat.Dispatch.Guarded
import PeerChat.System.Frame

/-! What hooks record of themselves and the phase that they set, when several of them run at once.
Each writes first the one and then the other, in two transactions. -/
namespace PeerChat
open Python Wire Interleaving

/-- Only hooks, on a machine that may change. -/
def hooks : System HookPayload World Op where
  code payload := deliver payload >>= fun _ => .ret ()
  exclusive _ := false
  allowed _ _ := true
  outside := Op.isOutside

/-- The phase and the event of the last hook tell the same. -/
structure EvidenceAgrees (k : Meta) : Prop where
  idle : k.phase = some .idle ↔ ∃ seen, k.hookSeen = some seen ∧ seen.event.idle = true
  active : k.phase = some .active ↔ ∃ seen, k.hookSeen = some seen ∧ seen.event.active = true

/-! The accesses that write one or the other. -/

/-- The event that a hook records. -/
def seenEvent : Op → Option HookEvent
  | .key (.putHookSeen seen) => some seen.event
  | _ => none

def Op.putsPhase : Op → Bool
  | .key (.putPhase _) => true
  | _ => false

def Op.rejectsHook : Op → Bool
  | .key (.putHookRejected _) => true
  | _ => false

/-- The access leaves the phase and the record of the last hook. -/
def Op.leavesEvidence (l : Op) : Bool := MetaKey.phase ∉ l.writes && MetaKey.hookSeen ∉ l.writes

/-- The last event that the steps record. -/
def lastSeenEvent (ts : List (Step World Op)) : Option HookEvent :=
  ts.foldl (fun last t => (seenEvent t.label).or last) none

lemma lastSeenEvent_append (ts : List (Step World Op)) (t : Step World Op) :
    lastSeenEvent (ts ++ [t]) = (seenEvent t.label).or (lastSeenEvent ts) := by
  rw [lastSeenEvent,List.foldl_append]
  rfl

lemma leaves_seen {l : Op} (h : l.leavesEvidence = true) : seenEvent l = none ∧
    l.putsPhase = false := by
  cases l with
  | key op => cases op <;> first | exact ⟨rfl,rfl⟩ | cases h
  | _ => exact ⟨rfl,rfl⟩

/-! One hook. -/

/-- A hook sets the phase of the event that it has recorded, unless it has been rejected, and writes
nothing else of the two. -/
def Faithful (past : List (Step World Op)) (t : Step World Op) : Prop :=
  match t.label with
  | .key (.putHookSeen seen) => seen.event.lifecycle = true
  | .key (.putPhase phase) => (∃ st ∈ past, st.label.rejectsHook = true) ∨
      ∃ e, lastSeenEvent past = some e ∧ phase = eventPhase e
  | l => l.leavesEvidence = true

/-- A hook that ends has done both or neither, unless it has been rejected. -/
def Both {α : Type} (past : List (Step World Op)) (_ : α) : Prop :=
  (∃ st ∈ past, st.label.rejectsHook = true) ∨
    ((lastSeenEvent past).isSome = true → past.any (·.label.putsPhase) = true)

/-- A part of a hook that leaves the two. -/
lemma leaves_traced {α : Type} {p : Code α} (hp : p.Emits fun l => l.leavesEvidence = true)
    (past : List (Step World Op)) : p.Traced Faithful (fun u _ => past <+: u ∧
      lastSeenEvent u = lastSeenEvent past) past := by
  refine Prog.Traced.of_emits (K := fun u => past <+: u ∧ lastSeenEvent u = lastSeenEvent past) hp ?_
    ⟨List.prefix_refl _,rfl⟩
  rintro u l s ⟨hu,he⟩ hl
  refine ⟨?_,hu.trans (List.prefix_append ..),?_⟩
  · cases l with
    | key op => cases op <;> first | exact hl | cases hl
    | _ => exact hl
  · rw [lastSeenEvent_append,(leaves_seen hl).1]
    exact he

lemma deliverRouted_traced (config : Config) {payload : HookPayload} {past : List (Step World Op)}
    (h : (∃ st ∈ past, st.label.rejectsHook = true) ∨
      lastSeenEvent past = some payload.event) :
    (deliverRouted config payload).Traced Faithful Both past := by
  have hrenew : (renewWindow payload).Emits fun l => l.leavesEvidence = true :=
    renewWindow_emits (fun _ => rfl) payload
  have hdecide : (decideWake payload).Emits fun l => l.leavesEvidence = true := decideWake_emits rfl
  have hhand : (handOver config).Emits fun l => l.leavesEvidence = true :=
    handOver_emits rfl fun _ => rfl
  refine Prog.Traced.bind (leaves_traced hrenew past) fun u _ hu => ?_
  obtain ⟨hpre,hseen⟩ := hu
  intro s
  have hboth : ∀ {v : List (Step World Op)} {α : Type} (a : α),
      u ++ [⟨.key (.putPhase (eventPhase payload.event)),s⟩] <+: v → Both v a := by
    intro v α a hv
    exact Or.inr fun _ => List.any_eq_true.mpr
      ⟨⟨.key (.putPhase (eventPhase payload.event)),s⟩,hv.subset (by simp),rfl⟩
  refine ⟨?_,?_⟩
  · rcases h with ⟨st,hst,hr⟩ | h
    · exact Or.inl ⟨st,hpre.subset hst,hr⟩
    · exact Or.inr ⟨_,hseen.trans h,rfl⟩
  · refine Prog.Traced.bind (p := decideWake payload) (leaves_traced hdecide _) fun v _ hv => ?_
    split_ifs
    · exact hboth _ hv.1
    · exact (leaves_traced hhand v).imp fun x a hx => hboth a (hv.1.trans hx.1)

lemma deliver_traced (payload : HookPayload) : (deliver payload).Traced Faithful Both [] := by
  have hquiet : ∀ {past : List (Step World Op)} {α : Type} (a : α), lastSeenEvent past = none →
      Both past a := by
    intro past α a h
    refine Or.inr fun hsome => ?_
    rw [h] at hsome
    cases hsome
  simp only [deliver]
  split_ifs with hvalid
  · exact hquiet _ rfl
  · refine fun s => ⟨rfl,fun s₁ => ⟨rfl,?_⟩⟩
    simp only [Prog.bind]
    split
    · exact hquiet _ rfl
    · rename_i config _
      refine fun s₂ => ⟨rfl,?_⟩
      simp only [Prog.bind]
      split
      · refine fun s₃ => ⟨not_not.mp (not_or.mp hvalid).1,?_⟩
        exact deliverRouted_traced config (Or.inr rfl)
      · refine fun s₃ => ⟨rfl,?_⟩
        have hrejected : ∀ v : List (Step World Op), ∃ st ∈ v ++ [⟨.key (.putHookRejected
            (seenRecord s₂.machine payload config (register s.machine payload)
              (.rejected ‹Str›))),s₃⟩], st.label.rejectsHook = true :=
          fun v => ⟨_,List.mem_append_right _ (List.mem_singleton.mpr rfl),rfl⟩
        simp only [Prog.bind]
        split_ifs
        · exact deliverRouted_traced config (Or.inl (hrejected _))
        · exact Or.inl (hrejected _)

lemma hooks_traced (payload : HookPayload) : (hooks.code payload).Traced Faithful Both [] :=
  (deliver_traced payload).bind fun _ _ h => h

/-! Runs. -/

/-- The event of the run that sets the phase last. -/
def lastPhaseEvent (L : List (Record World Op)) : Option HookEvent :=
  L.foldl (fun last r => if r.step.label.putsPhase then lastSeenEvent r.before else last) none

lemma lastPhaseEvent_append (L : List (Record World Op)) (r : Record World Op) :
    lastPhaseEvent (L ++ [r]) =
      if r.step.label.putsPhase then lastSeenEvent r.before else lastPhaseEvent L := by
  rw [lastPhaseEvent,List.foldl_append]
  rfl

/-- What the records of hooks that are not rejected, and of the world outside, do to the two. -/
def Sets (r : Record World Op) : Prop :=
  (∃ seen, r.step.label = .key (.putHookSeen seen) ∧ seen.event.lifecycle = true) ∨
  (∃ e, r.step.label = .key (.putPhase (eventPhase e)) ∧ lastSeenEvent r.before = some e) ∨
  r.step.label.leavesEvidence = true

/-- The last writes are what is there in the end. -/
lemma last_writes {w : World} {L : List (Record World Op)} {ls : List Op}
    (hL : L.map (·.step) = stepsOf w ls) (hsets : ∀ r ∈ L, Sets r) :
    (∀ e, lastSeenEvent (stepsOf w ls) = some e → e.lifecycle = true ∧
      (after w ls).store.keys.hookSeen.map (·.event) = some e) ∧
    (lastSeenEvent (stepsOf w ls) = none →
      (after w ls).store.keys.hookSeen = w.store.keys.hookSeen) ∧
    (∀ e, lastPhaseEvent L = some e → (after w ls).store.keys.phase = some (eventPhase e)) ∧
    (lastPhaseEvent L = none → (after w ls).store.keys.phase = w.store.keys.phase) := by
  induction L using List.reverseRecOn generalizing ls with
  | nil =>
    obtain rfl : ls = [] := by
      cases ls with
      | nil => rfl
      | cons l ls => simp [stepsOf] at hL
    exact ⟨by rintro e ⟨⟩,fun _ => rfl,by rintro e ⟨⟩,fun _ => rfl⟩
  | append_singleton L r ih =>
    cases ls using List.reverseRecOn with
    | nil => simp [stepsOf] at hL
    | append_singleton ls l =>
      rw [stepsOf_append,List.map_append] at hL
      obtain ⟨hL,hr⟩ := List.append_inj' hL rfl
      have hr : r.step = ⟨l,after w ls⟩ := by simpa [stepsOf] using hr
      obtain ⟨hseen,hseen₀,hphase,hphase₀⟩ := ih hL fun r hr => hsets r (List.mem_append_left _ hr)
      have hlast : lastSeenEvent (stepsOf w (ls ++ [l])) =
          (seenEvent l).or (lastSeenEvent (stepsOf w ls)) := by
        rw [stepsOf_append]
        exact lastSeenEvent_append _ _
      rw [Interleaving.after_append,hlast,lastPhaseEvent_append,hr,Interleaving.after_cons,
        Interleaving.after_nil]
      have hrset := hsets r (by simp)
      simp only [Sets,hr] at hrset
      rcases hrset with ⟨seen,rfl,hlife⟩ | ⟨e,rfl,he⟩ | hleaves
      · refine ⟨?_,by rintro ⟨⟩,hphase,hphase₀⟩
        rintro e ⟨⟩
        exact ⟨hlife,rfl⟩
      · refine ⟨hseen,hseen₀,?_,?_⟩
        · rintro e' he'
          rw [if_pos (by rfl),he] at he'
          cases he'
          rfl
        · intro hnone
          rw [if_pos (by rfl),he] at hnone
          cases hnone
      · obtain ⟨hse,hpu⟩ := leaves_seen hleaves
        simp only [Op.leavesEvidence,Bool.and_eq_true,decide_eq_true_eq] at hleaves
        have hp : MetaKey.phase.Same (after w ls).store.keys _ := apply_frame l _ hleaves.1
        have hs : MetaKey.hookSeen.Same (after w ls).store.keys _ := apply_frame l _ hleaves.2
        change (apply l (after w ls)).store.keys.phase = _ at hp
        change (apply l (after w ls)).store.keys.hookSeen = _ at hs
        rw [hse,if_neg (by simp [hpu]),hs,hp]
        exact ⟨hseen,hseen₀,hphase,hphase₀⟩

lemma lastSeenEvent_isSome (ts : List (Step World Op)) :
    (lastSeenEvent ts).isSome = true ↔ ∃ t ∈ ts, (seenEvent t.label).isSome = true := by
  induction ts using List.reverseRecOn with
  | nil => simp [lastSeenEvent]
  | append_singleton ts t ih =>
    rw [lastSeenEvent_append,Option.isSome_or,Bool.or_eq_true,ih]
    constructor
    · rintro (h | ⟨t',ht',h⟩)
      · exact ⟨t,by simp,h⟩
      · exact ⟨t',by simp [ht'],h⟩
    · rintro ⟨t',ht',h⟩
      rcases List.mem_append.mp ht' with ht' | ht'
      · exact Or.inr ⟨t',ht',h⟩
      · obtain rfl := List.mem_singleton.mp ht'
        exact Or.inl h

lemma lastPhaseEvent_isSome {L : List (Record World Op)} (hsets : ∀ r ∈ L, Sets r) :
    (lastPhaseEvent L).isSome = true ↔ ∃ r ∈ L, r.step.label.putsPhase = true := by
  induction L using List.reverseRecOn with
  | nil => simp [lastPhaseEvent]
  | append_singleton L r ih =>
    have ih := ih fun r hr => hsets r (List.mem_append_left _ hr)
    rw [lastPhaseEvent_append]
    split_ifs with hputs
    · refine iff_of_true ?_ ⟨r,by simp,hputs⟩
      rcases hsets r (by simp) with ⟨seen,hl,-⟩ | ⟨e,-,he⟩ | hleaves
      · rw [hl] at hputs
        cases hputs
      · rw [he]
        rfl
      · rw [(leaves_seen hleaves).2] at hputs
        cases hputs
    · rw [ih]
      constructor
      · rintro ⟨r',hr',h⟩
        exact ⟨r',by simp [hr'],h⟩
      · rintro ⟨r',hr',h⟩
        rcases List.mem_append.mp hr' with hr' | hr'
        · exact ⟨r',hr',h⟩
        · obtain rfl := List.mem_singleton.mp hr'
          exact absurd h hputs

/-- The run that records its event last and the run that sets the phase last have events of one
kind. -/
def SameKind (L : List (Record World Op)) : Prop :=
  ∀ e ∈ lastSeenEvent (L.map (·.step)), ∀ e' ∈ lastPhaseEvent L, e.idle = e'.idle

instance (L : List (Record World Op)) : Decidable (SameKind L) :=
  inferInstanceAs (Decidable (∀ e ∈ lastSeenEvent (L.map (·.step)), ∀ e' ∈ lastPhaseEvent L,
    e.idle = e'.idle))

lemma active_iff {e : HookEvent} (h : e.lifecycle = true) : e.active = !e.idle := by
  cases e <;> first | rfl | cases h

section
variable {w : World} {es : List (Event HookPayload Op)} {r : Record World Op}

/-- What is written is written by a hook. -/
lemma hook_of_write (hout : r.process = none → r.step.label.isOutside = true)
    (h : (seenEvent r.step.label).isSome = true ∨ r.step.label.putsPhase = true) :
    ∃ i, r.process = some i := by
  cases hi : r.process with
  | some i => exact ⟨i,rfl⟩
  | none =>
    have ho := hout hi
    revert h ho
    cases r.step.label <;> simp [Op.isOutside,seenEvent,Op.putsPhase]

/-- A hook that has recorded itself and has ended has set the phase. -/
lemma ended_puts (hcrash : ∀ j, .crash j ∉ es)
    (hpass : ∀ t ∈ hooks.trace (.idle w) es, t.label.rejectsHook = false)
    (hdone : ∀ i b p, (hooks.final (.idle w) es).procs i = some (b,p) → p.isDone = true)
    (hr : r ∈ hooks.log w es) {i : ℕ} (hi : r.process = some i)
    (hse : (seenEvent r.step.label).isSome = true) :
    ∃ r ∈ hooks.log w es, r.step.label.putsPhase = true := by
  have hknown := (System.log_explained (S := hooks) hooks_traced es
    (System.known_idle (G := Faithful) (Q := Both) w)).1 i
  have hpast : hooks.pasts (.idle w) (fun _ => []) es i =
      (recordsOf i (hooks.log w es)).map (·.step) := by
    rw [hooks.pasts_eq hcrash,List.nil_append]
    rfl
  have hmem : r.step ∈ (recordsOf i (hooks.log w es)).map (·.step) :=
    List.mem_map_of_mem (List.mem_filter.mpr ⟨hr,by simp [hi]⟩)
  rw [hpast] at hknown
  cases hproc : (hooks.final (.idle w) es).procs i with
  | none =>
    rw [hproc] at hknown
    rw [hknown] at hmem
    cases hmem
  | some q =>
    obtain ⟨b,p⟩ := q
    rw [hproc] at hknown
    have hended := hdone i b p hproc
    cases p with
    | act l next => cases hended
    | ret a =>
      rcases hknown with ⟨st,hst,hreject⟩ | hputs
      · obtain ⟨r',hr',rfl⟩ := List.mem_map.mp hst
        have hin : r'.step ∈ hooks.trace (.idle w) es := by
          rw [← hooks.log_steps]
          exact List.mem_map_of_mem (List.mem_of_mem_filter hr')
        rw [hpass _ hin] at hreject
        cases hreject
      · obtain ⟨st,hst,hput⟩ := List.any_eq_true.mp
          (hputs ((lastSeenEvent_isSome _).mpr ⟨r.step,hmem,hse⟩))
        obtain ⟨r',hr',rfl⟩ := List.mem_map.mp hst
        exact ⟨r',List.mem_of_mem_filter hr',hput⟩

end

/-- What agreement is where a hook of one event has recorded itself, and one of another event has set
the phase. -/
lemma evidenceAgrees_iff {k : Meta} {seen : HookSeen} {e : HookEvent} (hk : k.hookSeen = some seen)
    (hlife : seen.event.lifecycle = true) (hphase : k.phase = some (eventPhase e)) :
    EvidenceAgrees k ↔ seen.event.idle = e.idle := by
  have hactive := active_iff hlife
  have hidle : k.phase = some .idle ↔ e.idle = true := by
    rw [hphase,eventPhase]
    cases e.idle <;> simp
  have hact : k.phase = some .active ↔ e.idle = false := by
    rw [hphase,eventPhase]
    cases e.idle <;> simp
  constructor
  · intro h
    have hi := hidle.symm.trans h.idle
    rw [hk] at hi
    simp only [Option.some.injEq,exists_eq_left'] at hi
    rw [Bool.eq_iff_iff]
    exact hi.symm
  · intro he
    constructor
    · rw [hidle,hk]
      simp [he]
    · rw [hact,hk]
      simp [hactive,he]

/-- Every set of concurrent hooks that pass the routing check and run to their ends, in every
interleaving, from a state in which the phase and the last hook agree: they agree in the end exactly
if the hook that records its event last and the hook that sets the phase last have events of one
kind. -/
theorem evidence_agrees_iff {w : World} {es : List (Event HookPayload Op)}
    (h : EvidenceAgrees w.store.keys) (hcrash : ∀ j, .crash j ∉ es)
    (hpass : ∀ t ∈ hooks.trace (.idle w) es, t.label.rejectsHook = false)
    (hdone : ∀ i b p, (hooks.final (.idle w) es).procs i = some (b,p) → p.isDone = true) :
    EvidenceAgrees (hooks.final (.idle w) es).state.store.keys ↔ SameKind (hooks.log w es) := by
  have hrecs := (System.log_explained (S := hooks) hooks_traced es
    (System.known_idle (G := Faithful) (Q := Both) w)).2
  have hsets : ∀ r ∈ hooks.log w es, Sets r := by
    intro r hr
    have hexp := hrecs r hr
    cases hi : r.process with
    | none =>
      simp only [System.Explained,hi] at hexp
      refine Or.inr (Or.inr ?_)
      revert hexp
      cases r.step.label <;> first | exact fun _ => rfl | rintro ⟨⟩
    | some i =>
      simp only [System.Explained,hi] at hexp
      obtain ⟨process,before,l,s⟩ := r
      cases l with
      | key op =>
        cases op with
        | putHookSeen seen => exact Or.inl ⟨seen,rfl,hexp⟩
        | putPhase phase =>
          rcases hexp with ⟨st,hst,hreject⟩ | ⟨e,he,rfl⟩
          · rw [hpass st (System.before_mem hr hi hst)] at hreject
            cases hreject
          · exact Or.inr (Or.inl ⟨e,rfl,he⟩)
        | _ => exact Or.inr (Or.inr hexp)
      | _ => exact Or.inr (Or.inr hexp)
  obtain ⟨ls,hls,hfinal⟩ := hooks.exists_labels (.idle w) es
  change hooks.trace (.idle w) es = stepsOf w ls at hls
  change (hooks.final (.idle w) es).state = after w ls at hfinal
  have hL : (hooks.log w es).map (·.step) = stepsOf w ls := (hooks.log_steps w es).trans hls
  obtain ⟨hseen,hseen₀,hphase,hphase₀⟩ := last_writes hL hsets
  have hout : ∀ r ∈ hooks.log w es, r.process = none → r.step.label.isOutside = true := by
    intro r hr hi
    have hexp := hrecs r hr
    simp only [System.Explained,hi] at hexp
    exact hexp
  have hboth : (lastSeenEvent (stepsOf w ls)).isSome = true ↔
      (lastPhaseEvent (hooks.log w es)).isSome = true := by
    rw [← hL,lastSeenEvent_isSome,lastPhaseEvent_isSome hsets]
    constructor
    · rintro ⟨t,ht,hse⟩
      obtain ⟨r,hr,rfl⟩ := List.mem_map.mp ht
      obtain ⟨i,hi⟩ := hook_of_write (hout r hr) (Or.inl hse)
      exact ended_puts hcrash hpass hdone hr hi hse
    · rintro ⟨r,hr,hputs⟩
      obtain ⟨i,hi⟩ := hook_of_write (hout r hr) (Or.inr hputs)
      rcases hsets r hr with ⟨seen,hl,-⟩ | ⟨e,-,he⟩ | hleaves
      · rw [hl] at hputs
        cases hputs
      · obtain ⟨t,ht,hse⟩ := (lastSeenEvent_isSome _).mp (Option.isSome_iff_exists.mpr ⟨e,he⟩)
        refine ⟨t,?_,hse⟩
        rw [hooks.log_steps]
        exact System.before_mem hr hi ht
      · rw [(leaves_seen hleaves).2] at hputs
        cases hputs
  rw [hfinal,SameKind,hL]
  cases hs : lastSeenEvent (stepsOf w ls) with
  | none =>
    have hp : lastPhaseEvent (hooks.log w es) = none := by
      rw [hs] at hboth
      simpa using hboth
    refine iff_of_true ⟨?_,?_⟩ (by rintro e ⟨⟩)
    · rw [hphase₀ hp,hseen₀ hs]
      exact h.idle
    · rw [hphase₀ hp,hseen₀ hs]
      exact h.active
  | some e =>
    obtain ⟨e',hp⟩ := Option.isSome_iff_exists.mp (hboth.mp (by rw [hs]; rfl))
    obtain ⟨hlife,hev⟩ := hseen e hs
    obtain ⟨seen,hk,rfl⟩ := Option.map_eq_some_iff.mp hev
    rw [evidenceAgrees_iff hk hlife (hphase e' hp),hp]
    simp

/-! A hook of a turn's end and a hook of a tool use. -/

def configured : World := after (World.new hookMachine) [Op.key (.putConfig sampleConfig)]

/-- The hook of the turn's end records itself; the other runs for `k` accesses; then the first sets
its phase, and the other ends. -/
def crossing (k : ℕ) : List (Event HookPayload Op) :=
  .start 0 { sampleToolUse with event := .stop } :: .start 1 sampleToolUse ::
    List.replicate 4 (.step 0) ++ List.replicate k (.step 1) ++ List.replicate 4 (.step 0) ++
      List.replicate 12 (.step 1)

lemma configured_agrees : EvidenceAgrees configured.store.keys :=
  ⟨⟨by rintro ⟨⟩,by rintro ⟨_,⟨⟩,_⟩⟩,⟨by rintro ⟨⟩,by rintro ⟨_,⟨⟩,_⟩⟩⟩

lemma crossing_crash (k j : ℕ) : .crash j ∉ crossing k := by simp [crossing]

lemma crossing_done {k : ℕ} (hk : ∀ i < 2, ((hooks.final (.idle configured) (crossing k)).procs i).all
    (fun q => q.2.isDone) = true) (i : ℕ) (b : Bool) (p : Prog World Op Unit)
    (hp : (hooks.final (.idle configured) (crossing k)).procs i = some (b,p)) : p.isDone = true := by
  refine hooks.final_done (fun e he => ?_) hk hp
  simp only [crossing,List.mem_append,List.mem_cons,List.mem_replicate] at he
  rcases he with ((((rfl | rfl | ⟨-,rfl⟩) | ⟨-,rfl⟩) | ⟨-,rfl⟩) | ⟨-,rfl⟩) <;> rfl

/-- One hook after the other. -/
theorem evidence_agrees_apart :
    EvidenceAgrees (hooks.final (.idle configured) (crossing 0)).state.store.keys :=
  (evidence_agrees_iff configured_agrees (crossing_crash 0) (by decide +kernel)
    (crossing_done (by decide +kernel))).mpr (by decide +kernel)

/-- A hook of a tool use that runs between the two writes of the other is the last one recorded, and
the session counts as idle. -/
theorem evidence_crossed : ¬ ∀ (w : World) (es : List (Event HookPayload Op)),
    EvidenceAgrees w.store.keys → (∀ j, .crash j ∉ es) →
    (∀ t ∈ hooks.trace (.idle w) es, t.label.rejectsHook = false) →
    (∀ i b p, (hooks.final (.idle w) es).procs i = some (b,p) → p.isDone = true) →
    EvidenceAgrees (hooks.final (.idle w) es).state.store.keys := by
  intro h
  have hagrees := h configured (crossing 12) configured_agrees (crossing_crash 12)
    (by decide +kernel) (crossing_done (by decide +kernel))
  have hphase : (hooks.final (.idle configured) (crossing 12)).state.store.keys.phase = some .idle := by
    decide +kernel
  obtain ⟨seen,hseen,hidle⟩ := hagrees.idle.mp hphase
  have hevent : (hooks.final (.idle configured) (crossing 12)).state.store.keys.hookSeen.map (·.event) =
      some .postToolUse := by decide +kernel
  rw [hseen,Option.map_some,Option.some.injEq] at hevent
  rw [hevent] at hidle
  cases hidle

end PeerChat
