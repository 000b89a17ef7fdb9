import PeerChat.Interleaving.Pool

/-! What a process has done before each of its accesses. A program is judged by its own past, and
the log of a run keeps, for every access, the past of its process; so what each program does by
itself holds of every access of every run. -/
namespace Interleaving

variable {π σ Λ α β : Type}

/-- Whatever the program finds, each of its accesses is in `G` after what it has done, and its end
is in `Q`. -/
def Prog.Traced (G : List (Step σ Λ) → Step σ Λ → Prop) (Q : List (Step σ Λ) → α → Prop) :
    Prog σ Λ α → List (Step σ Λ) → Prop
  | .ret a, h => Q h a
  | .act l next, h => ∀ s, G h ⟨l,s⟩ ∧ (next s).Traced G Q (h ++ [⟨l,s⟩])

namespace Prog
variable {G : List (Step σ Λ) → Step σ Λ → Prop} {h : List (Step σ Λ)}

theorem Traced.bind {P : List (Step σ Λ) → α → Prop} {Q : List (Step σ Λ) → β → Prop}
    {p : Prog σ Λ α} {f : α → Prog σ Λ β} (hp : p.Traced G P h)
    (hf : ∀ u a, P u a → (f a).Traced G Q u) : (p >>= f).Traced G Q h := by
  induction p generalizing h with
  | ret a => exact hf h a hp
  | act l next ih => exact fun s => ⟨(hp s).1,ih s (hp s).2⟩

theorem Traced.imp {P Q : List (Step σ Λ) → α → Prop} {p : Prog σ Λ α} (hp : p.Traced G P h)
    (hPQ : ∀ u a, P u a → Q u a) : p.Traced G Q h := by
  induction p generalizing h with
  | ret a => exact hPQ h a hp
  | act l next ih => exact fun s => ⟨(hp s).1,ih s (hp s).2⟩

theorem Traced.weaken {G' : List (Step σ Λ) → Step σ Λ → Prop} {Q : List (Step σ Λ) → α → Prop}
    {p : Prog σ Λ α} (hp : p.Traced G Q h) (hG : ∀ u t, G u t → G' u t) : p.Traced G' Q h := by
  induction p generalizing h with
  | ret a => exact hp
  | act l next ih => exact fun s => ⟨hG _ _ (hp s).1,ih s (hp s).2⟩

theorem Traced.and {G' : List (Step σ Λ) → Step σ Λ → Prop} {P Q : List (Step σ Λ) → α → Prop}
    {p : Prog σ Λ α} (hp : p.Traced G P h) (hq : p.Traced G' Q h) :
    p.Traced (fun u t => G u t ∧ G' u t) (fun u a => P u a ∧ Q u a) h := by
  induction p generalizing h with
  | ret a => exact ⟨hp,hq⟩
  | act l next ih => exact fun s => ⟨⟨(hp s).1,(hq s).1⟩,ih s (hp s).2 (hq s).2⟩

/-- A knowledge of the past that allows every access of the program, and survives it. -/
theorem Traced.of_emits {L : Λ → Prop} {K : List (Step σ Λ) → Prop} {p : Prog σ Λ α}
    (hp : p.Emits L) (hstep : ∀ u l s, K u → L l → G u ⟨l,s⟩ ∧ K (u ++ [⟨l,s⟩])) (hK : K h) :
    p.Traced G (fun u _ => K u) h := by
  induction p generalizing h with
  | ret a => exact hK
  | act l next ih =>
    intro s
    obtain ⟨hG,hK'⟩ := hstep h l s hK hp.1
    exact ⟨hG,ih s (hp.2 s) hK'⟩

/-- A program only adds to its past. -/
theorem Traced.extends (p : Prog σ Λ α) (h : List (Step σ Λ)) :
    p.Traced (fun _ _ => True) (fun u _ => h <+: u) h := by
  induction p generalizing h with
  | ret a => exact List.prefix_refl h
  | act l next ih =>
    exact fun s => ⟨trivial,(ih s _).imp fun u _ hu => (List.prefix_append ..).trans hu⟩

end Prog

/-- An execution takes a judged program on with its own steps as its past. -/
theorem Prog.Traced.exec [Acts Λ σ] {Foreign : Λ → Prop} {G : List (Step σ Λ) → Step σ Λ → Prop}
    {Q : List (Step σ Λ) → α → Prop} {h : List (Step σ Λ)} {p q : Prog σ Λ α} {s s' : σ}
    {t : List (Entry σ Λ)} (hp : p.Traced G Q h) (he : Exec Foreign p s t q s') :
    q.Traced G Q (h ++ ownSteps t) := by
  induction he generalizing h with
  | refl => simpa [ownSteps] using hp
  | own _ ih =>
    rw [ownSteps_cons_own,← List.singleton_append,← List.append_assoc]
    exact ih (hp _).2
  | foreign _ _ ih => exact ih hp

/-- Each access of an execution is judged by the own accesses before it. -/
theorem Prog.Traced.exec_step [Acts Λ σ] {Foreign : Λ → Prop}
    {G : List (Step σ Λ) → Step σ Λ → Prop} {Q : List (Step σ Λ) → α → Prop} {h : List (Step σ Λ)}
    {p q : Prog σ Λ α} {s s' : σ} {u v : List (Entry σ Λ)} {st : Step σ Λ} (hp : p.Traced G Q h)
    (he : Exec Foreign p s (u ++ ⟨true,st⟩ :: v) q s') : G (h ++ ownSteps u) st := by
  obtain ⟨r,s₁,hbefore,hafter⟩ := he.split
  have hr := hp.exec hbefore
  cases hafter with
  | own rest => exact (hr _).1

/-- Steps that lead from one view of the state to another, each from where the last has left it. -/
def Chained [Acts Λ σ] {ν : Type} (view : σ → ν) : ν → List (Step σ Λ) → ν → Prop
  | v, [], v' => v' = v
  | v, t::ts, v' => view t.pre = v ∧ Chained view (view t.post) ts v'

/-- The steps of an execution that can change a view chain it. -/
theorem Exec.chained [Acts Λ σ] {ν : Type} {view : σ → ν} {writes : Λ → Bool}
    (hframe : ∀ l s, writes l = false → view (apply l s) = view s) {Foreign : Λ → Prop}
    {p q : Prog σ Λ α} {s s' : σ} {t : List (Entry σ Λ)} (h : Exec Foreign p s t q s') :
    Chained view (view s) ((t.map (·.step)).filter fun st => writes st.label) (view s') := by
  have hstep : ∀ (l : Λ) (s : σ) (ts : List (Step σ Λ)) (v : ν),
      Chained view (view (apply l s)) (ts.filter fun st => writes st.label) v →
      Chained view (view s) ((⟨l,s⟩ :: ts).filter fun st => writes st.label) v := by
    intro l s ts v hrest
    cases hl : writes l with
    | true =>
      simp only [List.filter_cons,hl]
      exact ⟨rfl,hrest⟩
    | false =>
      simp only [List.filter_cons,hl]
      rw [hframe l s hl] at hrest
      exact hrest
  induction h with
  | refl => rfl
  | own _ ih => exact hstep _ _ _ _ ih
  | foreign _ _ ih => exact hstep _ _ _ _ ih

/-! The log of a run. -/

/-- An access of a run: its process, or none for the world outside, and what this process has done
before. -/
structure Record (σ Λ : Type) where
  process : Option ℕ
  before : List (Step σ Λ)
  step : Step σ Λ

/-- The process that an event lets make an access. -/
def Event.actor : Event π Λ → Option ℕ
  | .step i => some i
  | _ => none

/-- The process that an event ends. -/
def Event.crashes : Event π Λ → Option ℕ
  | .crash i => some i
  | _ => none

/-- The process that an event begins. -/
def Event.starts : Event π Λ → Option ℕ
  | .start i _ => some i
  | _ => none

/-- What every process has done, after an event and the access that it makes. A process that has
ended leaves its number to a new one. -/
def pastOf (past : ℕ → List (Step σ Λ)) : Event π Λ → Option (Step σ Λ) → ℕ → List (Step σ Λ)
  | .step i, some t => Function.update past i (past i ++ [t])
  | .crash i, _ => Function.update past i []
  | _, _ => past

/-- The records of one process. -/
def recordsOf (i : ℕ) (L : List (Record σ Λ)) : List (Record σ Λ) :=
  L.filter fun r => r.process = some i

variable [Acts Λ σ]

namespace System
variable (S : System π σ Λ)

/-- The record of an event, if it makes an access. -/
def record (c : Pool σ Λ) (past : ℕ → List (Step σ Λ)) (e : Event π Λ) : Option (Record σ Λ) :=
  (S.next c e).1.map fun t => ⟨e.actor,(e.actor.map past).getD [],t⟩

def logFrom (c : Pool σ Λ) (past : ℕ → List (Step σ Λ)) : List (Event π Λ) → List (Record σ Λ)
  | [] => []
  | e::es => (S.record c past e).toList ++
      logFrom (S.next c e).2 (pastOf past e (S.next c e).1) es

/-- What every process has done at the end of a schedule. -/
def pasts (c : Pool σ Λ) (past : ℕ → List (Step σ Λ)) : List (Event π Λ) → ℕ → List (Step σ Λ)
  | [] => past
  | e::es => pasts (S.next c e).2 (pastOf past e (S.next c e).1) es

/-- The log of a run that begins without processes. -/
def log (s : σ) (es : List (Event π Λ)) : List (Record σ Λ) :=
  S.logFrom (.idle s) (fun _ => []) es

theorem logFrom_steps (c : Pool σ Λ) (past : ℕ → List (Step σ Λ)) (es : List (Event π Λ)) :
    (S.logFrom c past es).map (·.step) = S.trace c es := by
  induction es generalizing c past with
  | nil => rfl
  | cons e es ih =>
    rw [logFrom,trace,List.map_append,ih,record]
    cases (S.next c e).1 <;> rfl

/-- The accesses of the log are those of the run. -/
theorem log_steps (s : σ) (es : List (Event π Λ)) :
    (S.log s es).map (·.step) = S.trace (.idle s) es := S.logFrom_steps _ _ es

/-- A step event makes an access of its process; what the process does next is what the program
says. -/
theorem next_step (c : Pool σ Λ) (i : ℕ) :
    (∃ e l next, c.procs i = some (e,.act l next) ∧
      S.next c (.step i) = (some ⟨l,c.state⟩,{ c with
        state := apply l c.state
        procs := Function.update c.procs i (some (e,next c.state)) })) ∨
    S.next c (.step i) = (none,c) := by
  rw [next]
  split
  · rename_i e l next hi
    exact Or.inl ⟨e,l,next,hi,rfl⟩
  · exact Or.inr rfl

/-! Programs judged by their own past. -/

section
variable (G : List (Step σ Λ) → Step σ Λ → Prop) (Q : List (Step σ Λ) → Unit → Prop)

/-- Each process goes on as it has begun, and a number without a process has no past. -/
def Known (c : Pool σ Λ) (past : ℕ → List (Step σ Λ)) : Prop :=
  ∀ i, match c.procs i with
    | some (_,p) => p.Traced G Q (past i)
    | none => past i = []

/-- What a record of a process is, and a record of the world outside. -/
def Explained (r : Record σ Λ) : Prop :=
  match r.process with
  | some _ => G r.before r.step
  | none => S.outside r.step.label = true

variable {S G Q}

lemma Known.next (hcode : ∀ p, (S.code p).Traced G Q []) {c : Pool σ Λ}
    {past : ℕ → List (Step σ Λ)} (hc : Known G Q c past) (e : Event π Λ) :
    Known G Q (S.next c e).2 (pastOf past e (S.next c e).1) ∧
      ∀ r ∈ S.record c past e, S.Explained G r := by
  cases e with
  | start i p =>
    by_cases hstart : (c.procs i).isNone ∧ S.allowed p c.state ∧ (S.exclusive p → c.lock.isNone)
    · simp only [record,System.next,if_pos hstart,Option.map_none,pastOf]
      refine ⟨fun j => ?_,by simp⟩
      have hj := hc j
      by_cases hij : j = i
      · subst hij
        rw [Option.isNone_iff_eq_none.mp hstart.1] at hj
        simp only [Function.update_self]
        rw [hj]
        exact hcode p
      · simpa only [Function.update_of_ne hij] using hj
    · simp only [record,System.next,if_neg hstart,Option.map_none,pastOf]
      exact ⟨hc,by simp⟩
  | step i =>
    rcases S.next_step c i with ⟨e,l,next,hi,hn⟩ | hn
    · have hi' := hc i
      rw [hi] at hi'
      obtain ⟨hG,hrest⟩ := hi' c.state
      simp only [record,hn,pastOf,Event.actor,Option.map_some,Option.getD_some]
      refine ⟨fun j => ?_,?_⟩
      · by_cases hij : j = i
        · subst hij
          simpa only [Function.update_self] using hrest
        · simpa only [Function.update_of_ne hij] using hc j
      · rintro r ⟨⟩
        exact hG
    · simp only [record,hn,pastOf,Option.map_none]
      exact ⟨hc,by simp⟩
  | crash i =>
    simp only [record,System.next,Option.map_none,pastOf]
    refine ⟨fun j => ?_,by simp⟩
    by_cases hij : j = i
    · subst hij
      simp
    · simpa only [Function.update_of_ne hij] using hc j
  | outside l =>
    simp only [record,System.next]
    split_ifs with hout
    · refine ⟨hc,?_⟩
      rintro r ⟨⟩
      exact hout
    · exact ⟨hc,by simp⟩

/-- What every program does after its own past, every record of a run shows; and every process is
where its past has brought it. -/
theorem log_explained (hcode : ∀ p, (S.code p).Traced G Q []) (es : List (Event π Λ)) {c : Pool σ Λ}
    {past : ℕ → List (Step σ Λ)} (hc : Known G Q c past) :
    Known G Q (S.final c es) (S.pasts c past es) ∧ ∀ r ∈ S.logFrom c past es, S.Explained G r := by
  induction es generalizing c past with
  | nil => exact ⟨hc,by simp [logFrom]⟩
  | cons e es ih =>
    obtain ⟨hc',hrec⟩ := hc.next hcode e
    obtain ⟨hfin,hrest⟩ := ih hc'
    refine ⟨hfin,fun r hr => ?_⟩
    rcases List.mem_append.mp hr with h | h
    · exact hrec r (by simpa using h)
    · exact hrest r h

omit [Acts Λ σ] in
theorem known_idle (s : σ) : Known G Q (.idle s : Pool σ Λ) fun _ => [] := fun _ => rfl

end

/-! Between two accesses of one process. -/

omit [Acts Λ σ] in
lemma recordsOf_append (i : ℕ) (L M : List (Record σ Λ)) :
    recordsOf i (L ++ M) = recordsOf i L ++ recordsOf i M := List.filter_append ..

/-- One event adds its own access to the past of its process, and may make a process forget. -/
lemma pastOf_suffix (c : Pool σ Λ) (past : ℕ → List (Step σ Λ)) (e : Event π Λ) (i : ℕ) :
    pastOf past e (S.next c e).1 i <:+
      past i ++ (recordsOf i (S.record c past e).toList).map (·.step) ∧
    ((∀ j, e ≠ .crash j) → pastOf past e (S.next c e).1 i =
      past i ++ (recordsOf i (S.record c past e).toList).map (·.step)) := by
  cases e with
  | start j p =>
    have hrec : S.record c past (.start j p) = none := by
      simp only [record,next]
      split_ifs <;> rfl
    rw [hrec]
    exact ⟨by simp [pastOf,recordsOf],fun _ => by simp [pastOf,recordsOf]⟩
  | crash j =>
    refine ⟨?_,fun h => absurd rfl (h j)⟩
    simp only [record,next,pastOf,recordsOf,Option.map_none,Option.toList_none,List.filter_nil,
      List.map_nil,List.append_nil]
    by_cases hij : i = j
    · subst hij
      rw [Function.update_self]
      exact List.nil_suffix
    · have hkeep : Function.update past j [] i = past i := Function.update_of_ne hij ..
      exact hkeep ▸ List.suffix_refl _
  | step j =>
    have heq : pastOf past (Event.step j : Event π Λ) (S.next c (.step j)).1 i =
        past i ++ (recordsOf i (S.record c past (.step j)).toList).map (·.step) := by
      rcases S.next_step c j with ⟨e,l,next,-,hn⟩ | hn
      · rw [record,hn]
        by_cases hij : i = j
        · subst hij
          simp [pastOf,recordsOf,Event.actor]
        · simp [pastOf,recordsOf,Event.actor,Function.update_of_ne hij,Ne.symm hij]
      · rw [record,hn]
        simp [pastOf,recordsOf]
    rw [heq]
    exact ⟨List.suffix_refl _,fun _ => rfl⟩
  | outside l =>
    have hrec : recordsOf i (S.record c past (.outside l)).toList = [] := by
      rw [record]
      cases (S.next c (.outside l)).1 <;> simp [recordsOf,Event.actor]
    rw [hrec]
    exact ⟨by simp [pastOf],fun _ => by simp [pastOf]⟩

/-- The past of a record is what its process has done earlier in the log. -/
theorem before_earlier {c : Pool σ Λ} {past : ℕ → List (Step σ Λ)} {es : List (Event π Λ)}
    {L M : List (Record σ Λ)} {r : Record σ Λ} (h : S.logFrom c past es = L ++ r :: M) {i : ℕ}
    (hi : r.process = some i) : r.before <:+ past i ++ (recordsOf i L).map (·.step) := by
  induction es generalizing c past L with
  | nil => simp [logFrom] at h
  | cons e es ih =>
    rw [logFrom] at h
    have hsuffix := (S.pastOf_suffix c past e i).1
    -- what follows the first event
    have hlater : ∀ L', logFrom S (S.next c e).2 (pastOf past e (S.next c e).1) es = L' ++ r :: M →
        r.before <:+ past i ++ (recordsOf i ((S.record c past e).toList ++ L')).map (·.step) := by
      intro L' h'
      rw [recordsOf_append,List.map_append,← List.append_assoc]
      refine (ih h').trans ?_
      obtain ⟨k,hk⟩ := hsuffix
      exact ⟨k,by rw [← List.append_assoc,hk]⟩
    cases hrec : S.record c past e with
    | none =>
      rw [hrec] at h hlater
      exact hlater L h
    | some r₀ =>
      rw [hrec] at h hlater
      cases L with
      | cons r₁ L =>
        rw [Option.toList_some,List.singleton_append,List.cons_append,List.cons.injEq] at h
        obtain ⟨rfl,h⟩ := h
        exact hlater L h
      | nil =>
        rw [Option.toList_some,List.singleton_append,List.nil_append,List.cons.injEq] at h
        obtain ⟨rfl,-⟩ := h
        obtain ⟨t,-,rfl⟩ := Option.map_eq_some_iff.mp hrec
        change e.actor = some i at hi
        change (e.actor.map past).getD [] <:+ _
        rw [hi]
        exact ⟨[],by simp [recordsOf]⟩

/-- Without crashes a process forgets nothing. -/
theorem pasts_eq {es : List (Event π Λ)} (hes : ∀ j, .crash j ∉ es) (c : Pool σ Λ)
    (past : ℕ → List (Step σ Λ)) (i : ℕ) :
    S.pasts c past es i = past i ++ (recordsOf i (S.logFrom c past es)).map (·.step) := by
  induction es generalizing c past with
  | nil => simp [pasts,logFrom,recordsOf]
  | cons e es ih =>
    have he : ∀ j, e ≠ .crash j := by
      rintro j rfl
      exact hes j (by simp)
    rw [pasts,ih (fun j hj => hes j (List.mem_cons_of_mem _ hj)),(S.pastOf_suffix c past e i).2 he,
      logFrom,recordsOf_append,List.map_append,List.append_assoc]

/-- A process number that makes no access has no past. -/
theorem pasts_idle {i : ℕ} {es : List (Event π Λ)} (hes : ∀ e ∈ es, e.actor ≠ some i)
    (c : Pool σ Λ) {past : ℕ → List (Step σ Λ)} (h : past i = []) : S.pasts c past es i = [] := by
  induction es generalizing c past with
  | nil => exact h
  | cons e es ih =>
    refine ih (fun e he => hes e (List.mem_cons_of_mem _ he)) _ ?_
    have he := hes e (List.mem_cons_self ..)
    cases e with
    | step j =>
      have hij : i ≠ j := fun hij => he (congrArg some hij.symm)
      cases hn : (S.next c (.step j)).1 with
      | none => exact h
      | some t => exact (Function.update_of_ne hij ..).trans h
    | crash j =>
      change Function.update past j [] i = []
      by_cases hij : i = j
      · rw [hij,Function.update_self]
      · rw [Function.update_of_ne hij,h]
    | _ => exact h

/-- A process number that is never started has no process. -/
theorem final_procs_idle {i : ℕ} {es : List (Event π Λ)} (hes : ∀ e ∈ es, e.starts ≠ some i)
    {c : Pool σ Λ} (h : c.procs i = none) : (S.final c es).procs i = none := by
  induction es generalizing c with
  | nil => exact h
  | cons e es ih =>
    refine ih (fun e he => hes e (List.mem_cons_of_mem _ he)) ?_
    have he := hes e (List.mem_cons_self ..)
    cases e with
    | start j p =>
      have hij : i ≠ j := fun hij => he (congrArg some hij.symm)
      rw [next]
      split
      · exact (Function.update_of_ne hij ..).trans h
      · exact h
    | step j =>
      rcases S.next_step c j with ⟨e,l,next,hj,hn⟩ | hn
      · have hij : i ≠ j := by
          rintro rfl
          cases hj.symm.trans h
        rw [hn]
        exact (Function.update_of_ne hij ..).trans h
      · rw [hn]
        exact h
    | crash j =>
      change Function.update c.procs j none i = none
      by_cases hij : i = j
      · rw [hij,Function.update_self]
      · rw [Function.update_of_ne hij,h]
    | outside l =>
      rw [next]
      split_ifs <;> exact h

/-- Where only the first numbers are started and their processes are done, all are. -/
theorem final_done {k : ℕ} {es : List (Event π Λ)} (hes : ∀ e ∈ es, e.starts.all (· < k) = true)
    {s : σ} (hdone : ∀ i < k, ((S.final (.idle s) es).procs i).all (fun q => q.2.isDone) = true)
    {i : ℕ} {b : Bool} {p : Prog σ Λ Unit} (hp : (S.final (.idle s) es).procs i = some (b,p)) :
    p.isDone = true := by
  by_cases hi : i < k
  · have hall := hdone i hi
    rw [hp] at hall
    exact hall
  · have hnone : (S.final (.idle s) es).procs i = none := by
      refine S.final_procs_idle (fun e he hstart => hi ?_) rfl
      have hfew := hes e he
      rw [hstart] at hfew
      simpa using hfew
    cases hnone.symm.trans hp

end System

/-- What every single step keeps, a sequence of steps keeps. -/
theorem steps_induction {P : σ → Prop} {s : σ} {ls : List Λ} (hs : P s)
    (hstep : ∀ t ∈ stepsOf s ls, P t.pre → P t.post) : P (after s ls) := by
  induction ls generalizing s with
  | nil => exact hs
  | cons l ls ih =>
    exact ih (hstep ⟨l,s⟩ (by simp [stepsOf]) hs) fun t ht => hstep t (by simp [stepsOf,ht])

/-- What every single step keeps, holds before each of them. -/
theorem steps_invariant {P : σ → Prop} {s : σ} {ls : List Λ} (hs : P s)
    (hstep : ∀ t ∈ stepsOf s ls, P t.pre → P t.post) : ∀ t ∈ stepsOf s ls, P t.pre := by
  induction ls generalizing s with
  | nil => simp [stepsOf]
  | cons l ls ih =>
    intro t ht
    rcases List.mem_cons.mp ht with rfl | ht
    · exact hs
    · exact ih (hstep ⟨l,s⟩ (List.mem_cons_self ..) hs)
        (fun t ht => hstep t (List.mem_cons_of_mem _ ht)) t ht

/-- A step of a sequence cuts its labels. -/
theorem stepsOf_cut {s : σ} {ls : List Λ} {T U : List (Step σ Λ)} {t : Step σ Λ}
    (h : stepsOf s ls = T ++ t :: U) : ∃ ks ms, ls = ks ++ t.label :: ms ∧ T = stepsOf s ks ∧
      t.pre = after s ks ∧ U = stepsOf t.post ms := by
  induction ls generalizing s T with
  | nil => simp [stepsOf] at h
  | cons l ls ih =>
    cases T with
    | nil =>
      simp only [stepsOf,List.nil_append,List.cons.injEq] at h
      obtain ⟨rfl,rfl⟩ := h
      exact ⟨[],ls,rfl,rfl,rfl,rfl⟩
    | cons x T =>
      simp only [stepsOf,List.cons_append,List.cons.injEq] at h
      obtain ⟨rfl,h⟩ := h
      obtain ⟨ks,ms,rfl,rfl,hpre,rfl⟩ := ih h
      exact ⟨l::ks,ms,rfl,rfl,hpre,rfl⟩

/-- A step of a sequence, and the sequence after it. -/
theorem stepsOf_split {s : σ} {ls : List Λ} {T U : List (Step σ Λ)} {t : Step σ Λ}
    (h : stepsOf s ls = T ++ t :: U) : ∃ ks ms, T = stepsOf s ks ∧ t.pre = after s ks ∧
      U = stepsOf t.post ms := by
  obtain ⟨ks,ms,-,hcut⟩ := stepsOf_cut h
  exact ⟨ks,ms,hcut⟩

namespace System
variable {S : System π σ Λ}

/-- What every access of a run keeps, holds before each of them and at the end. -/
theorem trace_invariant {P : σ → Prop} {c : Pool σ Λ} {es : List (Event π Λ)} (hc : P c.state)
    (hstep : ∀ t ∈ S.trace c es, P t.pre → P t.post) :
    (∀ t ∈ S.trace c es, P t.pre) ∧ P (S.final c es).state := by
  obtain ⟨ls,htrace,hfinal⟩ := S.exists_labels c es
  rw [htrace] at hstep
  rw [htrace,hfinal]
  exact ⟨steps_invariant hc hstep,steps_induction hc hstep⟩

/-- A run goes on from each of its accesses. -/
theorem trace_cut {c : Pool σ Λ} {es : List (Event π Λ)} {T U : List (Step σ Λ)} {t : Step σ Λ}
    (h : S.trace c es = T ++ t :: U) :
    ∃ ms, U = stepsOf t.post ms ∧ (S.final c es).state = after t.post ms := by
  obtain ⟨ls,htrace,hfinal⟩ := S.exists_labels c es
  rw [htrace] at h
  obtain ⟨ks,ms,rfl,-,hpre,hrest⟩ := stepsOf_cut h
  refine ⟨ms,hrest,?_⟩
  rw [hfinal,after_append,← hpre]
  rfl

/-- What a process has done before is part of the run. -/
theorem before_mem {s : σ} {es : List (Event π Λ)} {r : Record σ Λ} (hr : r ∈ S.log s es) {i : ℕ}
    (hi : r.process = some i) {st : Step σ Λ} (hst : st ∈ r.before) :
    st ∈ S.trace (.idle s) es := by
  obtain ⟨L,M,hlog⟩ := List.append_of_mem hr
  have hbefore := (S.before_earlier hlog hi).subset hst
  rw [List.nil_append] at hbefore
  obtain ⟨r',hr',rfl⟩ := List.mem_map.mp hbefore
  rw [← S.log_steps,hlog]
  exact List.mem_map_of_mem (List.mem_append_left _ (List.mem_of_mem_filter hr'))

/-- What holds after an access of a process, and what every access of the run keeps, holds at the
later accesses of this process. -/
theorem past_kept {P : σ → Prop} {s : σ} {es : List (Event π Λ)}
    (hP : ∀ t ∈ S.trace (.idle s) es, P t.pre → P t.post) {r : Record σ Λ} (hr : r ∈ S.log s es)
    {i : ℕ} (hi : r.process = some i) {st : Step σ Λ} (hst : st ∈ r.before) (h : P st.post) :
    P r.step.pre := by
  obtain ⟨L,M,hlog⟩ := List.append_of_mem hr
  obtain ⟨ls,htrace,-⟩ := S.exists_labels (.idle s) es
  have hbefore := (S.before_earlier hlog hi).subset hst
  rw [List.nil_append] at hbefore
  obtain ⟨r',hr',rfl⟩ := List.mem_map.mp hbefore
  obtain ⟨L₁,L₂,rfl⟩ := List.append_of_mem (List.mem_of_mem_filter hr')
  -- the steps of the log from the earlier access on
  have hsteps : stepsOf s ls = L₁.map (·.step) ++ r'.step ::
      (L₂.map (·.step) ++ r.step :: M.map (·.step)) := by
    have htr := S.log_steps s es
    rw [hlog] at htr
    change S.trace (.idle s) es = stepsOf s ls at htrace
    rw [← htrace,← htr]
    simp
  obtain ⟨-,ms,-,-,hms⟩ := stepsOf_split hsteps
  obtain ⟨ks,-,hks,hpre,-⟩ := stepsOf_split hms.symm
  rw [hpre]
  refine steps_induction h fun t ht => hP t ?_
  have hmem : t ∈ stepsOf s ls := by
    rw [hsteps,hks]
    simp [ht]
  change S.trace (.idle s) es = stepsOf s ls at htrace
  rwa [htrace]

end System
end Interleaving
