import PeerChat.Interleaving.Log

/-! Programs behind a preparation. The preparation acts on a part of the state of its own, and the
program goes on only where the preparation has succeeded. Without the accesses of the preparations a
run is one of the programs alone, so what holds of every run of these holds of it too. -/
namespace Interleaving

variable {κ σ M Λ π α β : Type}

/-- Either part of the state has labels of its own. -/
instance [Acts M κ] [Acts Λ σ] : Acts (M ⊕ Λ) (κ × σ) where
  apply
    | .inl m, s => (apply m s.1,s.2)
    | .inr l, s => (s.1,apply l s.2)

@[simp] theorem apply_inl [Acts M κ] [Acts Λ σ] (m : M) (s : κ × σ) :
    apply (.inl m : M ⊕ Λ) s = (apply m s.1,s.2) := rfl

@[simp] theorem apply_inr [Acts M κ] [Acts Λ σ] (l : Λ) (s : κ × σ) :
    apply (.inr l : M ⊕ Λ) s = (s.1,apply l s.2) := rfl

namespace Prog

/-- A program of the first part. -/
def first : Prog κ M α → Prog (κ × σ) (M ⊕ Λ) α
  | .ret a => .ret a
  | .act m next => .act (.inl m) fun s => (next s.1).first

/-- A program of the second part. -/
def second : Prog σ Λ α → Prog (κ × σ) (M ⊕ Λ) α
  | .ret a => .ret a
  | .act l next => .act (.inr l) fun s => (next s.2).second

/-- The program, where its preparation succeeds. -/
def prepared (q : Prog κ M Bool) (p : Prog σ Λ Unit) : Prog (κ × σ) (M ⊕ Λ) Unit :=
  q.first >>= fun done => if done then p.second else .ret ()

end Prog

/-- The access to the first part that a step is, if it is one. -/
def Step.first? (t : Step (κ × σ) (M ⊕ Λ)) : Option (Step κ M) :=
  match t.label with
  | .inl m => some ⟨m,t.pre.1⟩
  | .inr _ => none

lemma Step.first?_pre {t : Step (κ × σ) (M ⊕ Λ)} {u : Step κ M} (h : t.first? = some u) :
    u.pre = t.pre.1 := by
  unfold first? at h
  split at h
  · cases h
    rfl
  · cases h

/-- The access to the second part that a step is, if it is one. -/
def Step.second? (t : Step (κ × σ) (M ⊕ Λ)) : Option (Step σ Λ) :=
  match t.label with
  | .inl _ => none
  | .inr l => some ⟨l,t.pre.2⟩

namespace System

/-- The system whose programs each prepare themselves, as far as `prepares` says so. A program that does
not is started only where `ready` holds of the first part. What `stirs` allows may happen to the first
part from outside. -/
def prepared (S : System π σ Λ) (q : Prog κ M Bool) (prepares : π → Bool) (ready : κ → Bool)
    (stirs : M → Bool) : System π (κ × σ) (M ⊕ Λ) where
  code p := if prepares p then q.prepared (S.code p) else (S.code p).second
  exclusive := S.exclusive
  allowed p s := S.allowed p s.2 && (prepares p || ready s.1)
  outside
    | .inl m => stirs m
    | .inr l => S.outside l

/-- Where a prepared process stands, and where the one stands that needs no preparation. -/
inductive Stands :
    Option (Bool × Prog (κ × σ) (M ⊕ Λ) Unit) → Option (Bool × Prog σ Λ Unit) → Prop
  | absent : Stands none none
  | preparing (e : Bool) (q : Prog κ M Bool) (p : Prog σ Λ Unit) :
      Stands (some (e,q.prepared p)) (some (e,p))
  | working (e : Bool) (p : Prog σ Λ Unit) : Stands (some (e,p.second)) (some (e,p))
  /-- The preparation has failed; the other process just makes no more steps. -/
  | failed (e : Bool) (p : Prog σ Λ Unit) : Stands (some (e,.ret ())) (some (e,p))

structure Matches (c' : Pool (κ × σ) (M ⊕ Λ)) (c : Pool σ Λ) : Prop where
  state : c'.state.2 = c.state
  lock : c'.lock = c.lock
  procs : ∀ i, Stands (c'.procs i) (c.procs i)

variable {c' : Pool (κ × σ) (M ⊕ Λ)} {c : Pool σ Λ}

lemma Matches.idle (k : κ) (s : σ) :
    Matches (.idle (k,s) : Pool (κ × σ) (M ⊕ Λ)) (.idle s : Pool σ Λ) :=
  ⟨rfl,rfl,fun _ => .absent⟩

lemma Matches.isNone (h : Matches c' c) (i : ℕ) : (c'.procs i).isNone = (c.procs i).isNone := by
  have hi := h.procs i
  generalize c'.procs i = x at hi
  generalize c.procs i = y at hi
  cases hi <;> rfl

lemma Matches.update (h : Matches c' c) (i : ℕ) {x : Option (Bool × Prog (κ × σ) (M ⊕ Λ) Unit)}
    {y : Option (Bool × Prog σ Λ Unit)} (hxy : Stands x y) (j : ℕ) :
    Stands (Function.update c'.procs i x j) (Function.update c.procs i y j) := by
  by_cases hij : j = i
  · subst hij
    rw [Function.update_self,Function.update_self]
    exact hxy
  · rw [Function.update_of_ne hij,Function.update_of_ne hij]
    exact h.procs j

variable [Acts M κ] [Acts Λ σ] {S : System π σ Λ} {q : Prog κ M Bool} {prepares : π → Bool}
  {ready : κ → Bool} {stirs : M → Bool}

/-- The event of the system alone that makes the same of its state, if there is one, and the same
accesses. -/
def Follows (S : System π σ Λ) (c : Pool σ Λ) (r : Option (Step (κ × σ) (M ⊕ Λ)) × Pool (κ × σ) (M ⊕ Λ)) :
    Prop :=
  ∃ es : List (Event π Λ), Matches r.2 (S.final c es) ∧
    r.1.toList.filterMap Step.second? = S.trace c es

omit [Acts M κ] in
lemma Matches.stay (h : Matches c' c) : Follows S c (none,c') := ⟨[],h,rfl⟩

/-- A process past its preparation. -/
lemma Matches.work (h : Matches c' c) {i : ℕ} {e : Bool} {p : Prog σ Λ Unit}
    (hi' : c'.procs i = some (e,p.second)) (hi : c.procs i = some (e,p)) :
    Follows S c ((S.prepared q prepares ready stirs).next c' (.step i)) := by
  cases p with
  | ret a =>
    simp only [System.next,hi',Prog.second]
    exact h.stay
  | act l next =>
    refine ⟨[.step i],?_⟩
    simp only [System.next,hi',hi,Prog.second,final,trace,Option.toList_some,apply_inr]
    refine ⟨⟨by rw [h.state],h.lock,?_⟩,?_⟩
    · rw [h.state]
      exact h.update i (.working e _)
    · simp [Step.second?,h.state]

/-- One event of the prepared system is one of the system alone, or none. -/
lemma Matches.next (h : Matches c' c) (e : Event π (M ⊕ Λ)) :
    Follows S c ((S.prepared q prepares ready stirs).next c' e) := by
  cases e with
  | start i p =>
    by_cases hstart : (c'.procs i).isNone ∧ (S.prepared q prepares ready stirs).allowed p c'.state ∧
        ((S.prepared q prepares ready stirs).exclusive p → c'.lock.isNone)
    · have hstart' : (c.procs i).isNone ∧ S.allowed p c.state ∧
          (S.exclusive p → c.lock.isNone) := by
        obtain ⟨hnone,hallowed,hlock⟩ := hstart
        refine ⟨(h.isNone i).symm.trans hnone,?_,?_⟩
        · rw [← h.state]
          exact (Bool.and_eq_true_iff.mp hallowed).1
        · rw [← h.lock]
          exact hlock
      have hstands : Stands (some (S.exclusive p,(S.prepared q prepares ready stirs).code p))
          (some (S.exclusive p,S.code p)) := by
        unfold prepared
        dsimp only
        split_ifs
        · exact .preparing _ q _
        · exact .working _ _
      refine ⟨[.start i p],?_⟩
      simp only [System.next,if_pos hstart,final,trace,if_pos hstart',Option.toList_none,
        List.filterMap_nil,List.append_nil,and_true]
      exact ⟨h.state,by rw [← h.lock]; rfl,h.update i hstands⟩
    · simp only [System.next,if_neg hstart]
      exact h.stay
  | step i =>
    have hi := h.procs i
    generalize hx : c'.procs i = x at hi
    generalize hy : c.procs i = y at hi
    cases hi with
    | absent =>
      simp only [System.next,hx]
      exact h.stay
    | preparing e q' p =>
      cases q' with
      | ret done =>
        cases done with
        | false =>
          simp only [System.next,hx,Prog.prepared,Prog.first,Prog.ret_bind]
          exact h.stay
        | true => exact h.work hx hy
      | act m next =>
        simp only [System.next,hx,Prog.prepared,Prog.first,Prog.act_bind]
        refine ⟨[],⟨h.state,h.lock,fun j => ?_⟩,rfl⟩
        have hj := h.update i (.preparing e (next c'.state.1) p) j
        rwa [← hy,Function.update_eq_self] at hj
    | working e p => exact h.work hx hy
    | failed e p =>
      simp only [System.next,hx]
      exact h.stay
  | crash i =>
    refine ⟨[.crash i],⟨h.state,?_,h.update i .absent⟩,rfl⟩
    simp only [System.next,final,h.lock]
  | outside l =>
    cases l with
    | inl m =>
      by_cases hout : (S.prepared q prepares ready stirs).outside (.inl m) = true
      · simp only [System.next,if_pos hout]
        exact ⟨[],⟨h.state,h.lock,h.procs⟩,rfl⟩
      · simp only [System.next,if_neg hout]
        exact h.stay
    | inr l =>
      by_cases hout : S.outside l = true
      · refine ⟨[.outside l],?_⟩
        have hout' : (S.prepared q prepares ready stirs).outside (.inr l) = true := hout
        simp only [System.next,if_pos hout',if_pos hout,final,trace]
        exact ⟨⟨by simp [h.state],h.lock,h.procs⟩,by simp [Step.second?,h.state]⟩
      · have hout' : ¬ (S.prepared q prepares ready stirs).outside (.inr l) = true := hout
        simp only [System.next,if_neg hout']
        exact h.stay

/-- A run of the prepared system, without the accesses of the preparations, is a run of the system
alone. -/
theorem Matches.run (h : Matches c' c) (es' : List (Event π (M ⊕ Λ))) :
    ∃ es : List (Event π Λ),
      Matches ((S.prepared q prepares ready stirs).final c' es') (S.final c es) ∧
      ((S.prepared q prepares ready stirs).trace c' es').filterMap Step.second? = S.trace c es := by
  induction es' generalizing c' c with
  | nil => exact ⟨[],h,rfl⟩
  | cons e es' ih =>
    have hnext : Follows S c ((S.prepared q prepares ready stirs).next c' e) := h.next e
    obtain ⟨es,hmatch,htrace⟩ := hnext
    obtain ⟨fs,hmatch',htrace'⟩ := ih hmatch
    refine ⟨es ++ fs,?_,?_⟩
    · rw [final_append]
      exact hmatch'
    · rw [trace_append,trace,List.filterMap_append,htrace,htrace']

end System

/-! What the preparations do, and what the programs may rely on. -/

/-- The accesses of the first part are in `G`; those of the second find the first in `T`. -/
def Staged (G : κ → M → Prop) (T : κ → Prop) (s : κ × σ) : M ⊕ Λ → Prop
  | .inl m => G s.1 m
  | .inr _ => T s.1

section
variable [Acts M κ] [Acts Λ σ] {I T : κ → Prop} {R G : κ → M → Prop}

lemma stable_first {P : κ → Prop} (h : Stable I R P) : Stable (fun s : κ × σ => I s.1)
    (Staged (Λ := Λ) R fun _ => True) fun s => P s.1 := by
  intro s l hI hl hP
  cases l with
  | inl m => exact h s.1 m hI hl hP
  | inr l => exact hP

lemma sat_first {P : κ → Prop} {q : Prog κ M α} {Q : α → κ → Prop} (h : Sat I R G P q Q) :
    Sat (fun s : κ × σ => I s.1) (Staged (Λ := Λ) R fun _ => True) (Staged G T) (fun s => P s.1)
      q.first fun a s => Q a s.1 := by
  induction q generalizing P with
  | ret a => exact fun s hs => h s.1 hs
  | act m next ih =>
    intro s hI hs
    obtain ⟨hG,P',hst,hP',hrest⟩ := h s.1 hI hs
    exact ⟨hG,fun s => P' s.1,stable_first hst,hP',ih s.1 hrest⟩

lemma sat_second (hT : Stable I R T) (p : Prog σ Λ α) :
    Sat (fun s : κ × σ => I s.1) (Staged (Λ := Λ) R fun _ => True) (Staged G T) (fun s => T s.1)
      p.second fun _ _ => True := by
  induction p with
  | ret a => exact fun _ _ => trivial
  | act l next ih =>
    intro s hI hs
    exact ⟨hs,fun s => T s.1,stable_first hT,hs,ih s.2⟩

variable {S : System π σ Λ} {q : Prog κ M Bool} {prepares : π → Bool} {ready : κ → Bool}
  {stirs : M → Bool}

/-- Among preparations that satisfy their guarantee, each access of a preparation is guaranteed, and
each access of a program finds its part of the state ready. -/
theorem System.prepared_staged
    (hq : Sat I R G (fun _ => True) q fun done k => done = true → ready k = true)
    (hready : Stable I R fun k => ready k = true) (hcompat : ∀ k m, I k → G k m → R k m)
    (hkeep : ∀ k m, I k → G k m → I (apply m k))
    (hstirs : ∀ k m, I k → stirs m = true → R k m ∧ I (apply m k)) {k : κ} (hk : I k) (s : σ)
    (es : List (Event π (M ⊕ Λ))) : ∀ t ∈ (S.prepared q prepares ready stirs).trace (.idle (k,s)) es,
      Staged G (fun k => ready k = true) t.pre t.label ∨
        (S.prepared q prepares ready stirs).outside t.label = true := by
  have hS : (S.prepared q prepares ready stirs).Sound (fun s => I s.1)
      (fun _ => Staged R fun _ => True) fun _ => Staged G fun k => ready k = true :=
    { start := by
        intro p s hI hallowed
        have hcode : (S.prepared q prepares ready stirs).code p =
          if prepares p then q.prepared (S.code p) else (S.code p).second := rfl
        rw [hcode]
        split_ifs with hp
        · refine ⟨fun _ => True,fun _ _ _ _ _ => trivial,trivial,(sat_first hq).bind fun done => ?_⟩
          cases done with
          | false => exact fun _ _ => trivial
          | true => exact (sat_second hready _).mono fun s hs => hs rfl
        · refine ⟨fun s => ready s.1 = true,stable_first hready,?_,sat_second hready _⟩
          obtain ⟨-,hor⟩ := Bool.and_eq_true_iff.mp hallowed
          rw [Bool.or_eq_true] at hor
          exact hor.resolve_left hp
      compat := by
        intro _ _ s l hI _ hG
        cases l with
        | inl m => exact hcompat s.1 m hI hG
        | inr l => trivial
      outside := by
        intro _ s l hI hout
        cases l with
        | inl m => exact (hstirs s.1 m hI hout).1
        | inr l => trivial
      invariant := by
        intro _ s l hI hG
        cases l with
        | inl m => exact hkeep s.1 m hI hG
        | inr l => exact hI
      invariant_outside := by
        intro s l hI hout
        cases l with
        | inl m => exact (hstirs s.1 m hI hout).2
        | inr l => exact hI }
  intro t ht
  obtain ⟨-,⟨-,hG⟩ | hout⟩ := (hS.trace_fair es (Pool.idle_safe hk)).2 t ht
  · exact Or.inl hG
  · exact Or.inr hout

end

/-! The preparations judged by their own past. -/

section
variable {G : List (Step κ M) → Step κ M → Prop} {Q : List (Step κ M) → α → Prop}

/-- A preparation that is judged by its accesses to the first part. -/
theorem Prog.Traced.first {q : Prog κ M α} {h : List (Step (κ × σ) (M ⊕ Λ))}
    (hq : q.Traced G Q (h.filterMap Step.first?)) :
    q.first.Traced (fun u t => ∀ st ∈ t.first?, G (u.filterMap Step.first?) st)
      (fun u a => Q (u.filterMap Step.first?) a) h := by
  induction q generalizing h with
  | ret a => exact hq
  | act m next ih =>
    intro s
    obtain ⟨hG,hrest⟩ := hq s.1
    refine ⟨?_,ih s.1 ?_⟩
    · rintro st ⟨⟩
      exact hG
    · rw [List.filterMap_append]
      exact hrest

/-- A program of the second part makes no access to the first. -/
theorem Prog.traced_second (p : Prog σ Λ α) (h : List (Step (κ × σ) (M ⊕ Λ))) :
    p.second.Traced (fun u t => ∀ st ∈ t.first?, G (u.filterMap Step.first?) st)
      (fun _ _ => True) h := by
  induction p generalizing h with
  | ret a => trivial
  | act l next ih =>
    intro s
    refine ⟨?_,ih s.2 _⟩
    rintro st ⟨⟩

variable [Acts M κ] [Acts Λ σ] {S : System π σ Λ} {q : Prog κ M Bool} {prepares : π → Bool}
  {ready : κ → Bool} {stirs : M → Bool}

/-- Every access to the first part is one of a preparation, judged by what this has done before, or it
comes from outside. -/
theorem System.prepared_explained {Q : List (Step κ M) → Bool → Prop} (hq : q.Traced G Q [])
    (s : κ × σ) (es : List (Event π (M ⊕ Λ))) :
    ∀ r ∈ (S.prepared q prepares ready stirs).log s es, ∀ m, r.step.label = .inl m →
      G (r.before.filterMap Step.first?) ⟨m,r.step.pre.1⟩ ∨ stirs m = true := by
  have hcode : ∀ p, ((S.prepared q prepares ready stirs).code p).Traced
      (fun u t => ∀ st ∈ t.first?, G (u.filterMap Step.first?) st) (fun _ _ => True) [] := by
    intro p
    change Prog.Traced _ _ (if prepares p then q.prepared (S.code p) else (S.code p).second) _
    split_ifs
    · refine Prog.Traced.bind (Prog.Traced.first hq) fun u done _ => ?_
      cases done with
      | false => trivial
      | true => exact Prog.traced_second _ _
    · exact Prog.traced_second _ _
  intro r hr m hm
  have hexplained := (System.log_explained hcode es (System.known_idle s)).2 r hr
  unfold System.Explained at hexplained
  split at hexplained
  · refine Or.inl (hexplained _ ?_)
    unfold Step.first?
    rw [hm]
    rfl
  · rw [hm] at hexplained
    exact Or.inr hexplained

end
end Interleaving
