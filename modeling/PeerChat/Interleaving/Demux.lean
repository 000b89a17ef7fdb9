import Mathlib.Data.List.Nodup
import Mathlib.Tactic.Basic

/-! Numbered sessions behind one loop. Each is an automaton of its own; the loop opens them, hands
inputs to those that are still there, and keeps a common record of what they put out. What one session
puts out is what its automaton does with its own inputs, whatever the others do. -/
namespace Interleaving

variable {σ ι ο : Type}

/-- One input: what the session puts out, and where it stands then, or that it has ended. -/
abbrev Automaton (σ ι ο : Type) := σ → ι → List ο × Option σ

/-- What a session puts out on its own; nothing after its end. -/
def alone (A : Automaton σ ι ο) : Option σ → List ι → List ο
  | some s, i::is => (A s i).1 ++ alone A (A s i).2 is
  | _, _ => []

/-- Where a session stands on its own. -/
def standing (A : Automaton σ ι ο) : Option σ → List ι → Option σ
  | some s, i::is => standing A (A s i).2 is
  | s, _ => s

@[simp] theorem alone_none (A : Automaton σ ι ο) (is : List ι) : alone A none is = [] := by
  cases is <;> rfl

@[simp] theorem alone_nil (A : Automaton σ ι ο) (s : Option σ) : alone A s [] = [] := by
  cases s <;> rfl

@[simp] theorem standing_none (A : Automaton σ ι ο) (is : List ι) : standing A none is = none := by
  cases is <;> rfl

@[simp] theorem standing_nil (A : Automaton σ ι ο) (s : Option σ) : standing A s [] = s := by
  cases s <;> rfl

structure Demux (σ ο : Type) where
  /-- How many sessions there have been. -/
  count : ℕ := 0
  live : List (ℕ × σ) := []
  out : List (ℕ × ο) := []

inductive Signal (σ ι : Type)
  /-- The next number is given out, to a session or to a refused one. -/
  | opened (s : Option σ)
  /-- The sessions that there is an input for take it. -/
  | deliver (f : ℕ → Option ι)

/-- What a session does when inputs are handed out. -/
def taken (A : Automaton σ ι ο) (s : σ) : Option ι → List ο × Option σ
  | some i => A s i
  | none => ([],some s)

namespace Demux

def next (A : Automaton σ ι ο) (d : Demux σ ο) : Signal σ ι → Demux σ ο
  | .opened s => { d with
      count := d.count+1
      live := d.live ++ (s.map fun s => (d.count,s)).toList }
  | .deliver f => { d with
      live := d.live.filterMap fun p => (taken A p.2 (f p.1)).2.map fun s => (p.1,s)
      out := d.out ++ d.live.flatMap fun p => (taken A p.2 (f p.1)).1.map fun o => (p.1,o) }

def run (A : Automaton σ ι ο) (d : Demux σ ο) (es : List (Signal σ ι)) : Demux σ ο :=
  es.foldl (next A) d

/-- What one session has put out. -/
def outOf (d : Demux σ ο) (n : ℕ) : List ο :=
  d.out.filterMap fun p => if p.1 = n then some p.2 else none

end Demux

/-- The input of one session in a signal. -/
def Signal.own (n : ℕ) : Signal σ ι → Option ι
  | .opened _ => none
  | .deliver f => f n

/-! Numbers. -/

/-- No number is used twice, and no number that has not been given out. -/
structure Demux.Numbered (d : Demux σ ο) : Prop where
  nodup : (d.live.map Prod.fst).Nodup
  below : ∀ p ∈ d.live, p.1 < d.count
  out_below : ∀ p ∈ d.out, p.1 < d.count

lemma map_fst_filterMap (l : List (ℕ × σ)) (g : ℕ × σ → Option σ) :
    ((l.filterMap fun p => (g p).map fun s => (p.1,s)).map Prod.fst).Sublist (l.map Prod.fst) := by
  induction l with
  | nil => exact .slnil
  | cons p l ih =>
    cases hg : g p with
    | none =>
      rw [List.filterMap_cons_none (by simp [hg])]
      exact ih.cons _
    | some s =>
      rw [List.filterMap_cons_some (b := (p.1,s)) (by simp [hg])]
      exact ih.cons_cons _

namespace Demux
variable {A : Automaton σ ι ο} {d : Demux σ ο}

lemma Numbered.next (h : d.Numbered) (e : Signal σ ι) : (d.next A e).Numbered := by
  cases e with
  | opened s =>
    refine ⟨?_,fun p hp => ?_,fun p hp => Nat.lt_succ_of_lt (h.out_below p hp)⟩
    · cases s with
      | none => simpa [Demux.next] using h.nodup
      | some s =>
        simp only [Demux.next,Option.map_some,Option.toList_some,List.map_append,List.map_cons,
          List.map_nil]
        refine h.nodup.append (List.nodup_singleton _) fun n hn hm => ?_
        obtain ⟨p,hp,rfl⟩ := List.mem_map.mp hn
        have hlt := h.below p hp
        rw [List.mem_singleton.mp hm] at hlt
        omega
    · obtain hp | hp := List.mem_append.mp hp
      · exact Nat.lt_succ_of_lt (h.below p hp)
      · obtain ⟨s,-,rfl⟩ := Option.map_eq_some_iff.mp (Option.mem_toList.mp hp)
        exact Nat.lt_succ_self _
  | deliver f =>
    refine ⟨h.nodup.sublist (map_fst_filterMap ..),fun p hp => ?_,fun p hp => ?_⟩
    · simp only [Demux.next,List.mem_filterMap,Option.map_eq_some_iff] at hp
      obtain ⟨q,hq,s,-,rfl⟩ := hp
      exact h.below q hq
    · obtain hp | hp := List.mem_append.mp hp
      · exact h.out_below p hp
      · obtain ⟨q,hq,hp⟩ := List.mem_flatMap.mp hp
        obtain ⟨o,-,rfl⟩ := List.mem_map.mp hp
        exact h.below q hq

lemma numbered_new : ({} : Demux σ ο).Numbered := ⟨by simp,by simp,by simp⟩

lemma Numbered.run (h : d.Numbered) (es : List (Signal σ ι)) : (d.run A es).Numbered := by
  induction es generalizing d with
  | nil => exact h
  | cons e es ih => exact ih (h.next e)

/-- The session of a number that has not been given out. -/
lemma Numbered.lookup_count (h : d.Numbered) : d.live.lookup d.count = none := by
  rw [List.lookup_eq_none_iff]
  intro p hp
  rw [bne_iff_ne]
  have hlt := h.below p hp
  omega

lemma Numbered.outOf_count (h : d.Numbered) : d.outOf d.count = [] := by
  unfold outOf
  rw [List.filterMap_eq_nil_iff]
  intro p hp
  have hlt := h.out_below p hp
  rw [if_neg (by omega)]

end Demux

/-! One session among the others. -/

lemma lookup_filterMap {l : List (ℕ × σ)} (h : (l.map Prod.fst).Nodup) (g : ℕ × σ → Option σ)
    (n : ℕ) : (l.filterMap fun p => (g p).map fun s => (p.1,s)).lookup n =
      (l.lookup n).bind fun s => g (n,s) := by
  induction l with
  | nil => rfl
  | cons p l ih =>
    rw [List.map_cons,List.nodup_cons] at h
    obtain ⟨m,s⟩ := p
    by_cases hm : n = m
    · subst hm
      have hnone : l.lookup n = none := by
        rw [List.lookup_eq_none_iff]
        intro q hq
        rw [bne_iff_ne]
        intro he
        exact h.1 (List.mem_map.mpr ⟨q,hq,he.symm⟩)
      cases hg : g (n,s) with
      | none =>
        rw [List.filterMap_cons_none (by simp [hg]),ih h.2,hnone,List.lookup_cons_self]
        simp [hg]
      | some t =>
        rw [List.filterMap_cons_some (b := (n,t)) (by simp [hg]),List.lookup_cons_self,
          List.lookup_cons_self]
        simp [hg]
    · have hne : (n == m) = false := by simpa using hm
      cases hg : g (m,s) with
      | none =>
        rw [List.filterMap_cons_none (by simp [hg]),ih h.2,List.lookup_cons,hne]
      | some t =>
        rw [List.filterMap_cons_some (b := (m,t)) (by simp [hg]),List.lookup_cons,hne,ih h.2,
          List.lookup_cons,hne]

/-- What the session of a number adds to a common record. -/
lemma outOf_flatMap {l : List (ℕ × σ)} (h : (l.map Prod.fst).Nodup) (g : ℕ × σ → List ο) (n : ℕ) :
    ((l.flatMap fun p => (g p).map fun o => (p.1,o)).filterMap fun p =>
      if p.1 = n then some p.2 else none) = ((l.lookup n).map fun s => g (n,s)).getD [] := by
  have htagged : ∀ (m : ℕ) (os : List ο), ((os.map fun o => (m,o)).filterMap fun p =>
      if p.1 = n then some p.2 else none) = if m = n then os else [] := by
    intro m os
    rw [List.filterMap_map]
    split_ifs with hm
    · simp [hm]
    · simp [hm]
  induction l with
  | nil => rfl
  | cons p l ih =>
    rw [List.map_cons,List.nodup_cons] at h
    obtain ⟨m,s⟩ := p
    rw [List.flatMap_cons,List.filterMap_append,htagged,ih h.2,List.lookup_cons]
    by_cases hm : m = n
    · subst hm
      have hnone : l.lookup m = none := by
        rw [List.lookup_eq_none_iff]
        intro q hq
        rw [bne_iff_ne]
        intro he
        exact h.1 (List.mem_map.mpr ⟨q,hq,he.symm⟩)
      simp [hnone]
    · have hne : (n == m) = false := by simpa using Ne.symm hm
      rw [if_neg hm,hne,List.nil_append]

namespace Demux
variable {A : Automaton σ ι ο} {d : Demux σ ο}

lemma Numbered.next_own (h : d.Numbered) (e : Signal σ ι) {n : ℕ} (hn : n < d.count) :
    (d.next A e).live.lookup n = standing A (d.live.lookup n) (e.own n).toList ∧
      (d.next A e).outOf n = d.outOf n ++ alone A (d.live.lookup n) (e.own n).toList := by
  cases e with
  | opened s =>
    refine ⟨?_,by simp [Signal.own,Demux.next,outOf]⟩
    cases s with
    | none => simp [Signal.own,Demux.next]
    | some s =>
      have hne : (n == d.count) = false := by
        rw [beq_eq_false_iff_ne]
        omega
      simp [Signal.own,Demux.next,List.lookup_append,List.lookup_cons,hne]
  | deliver f =>
    simp only [Demux.next,outOf,Signal.own,List.filterMap_append]
    rw [lookup_filterMap h.nodup fun p => (taken A p.2 (f p.1)).2,
      outOf_flatMap h.nodup fun p => (taken A p.2 (f p.1)).1]
    cases d.live.lookup n with
    | none => simp
    | some s =>
      cases hf : f n with
      | none => simp [taken,hf]
      | some i => simp [taken,hf,alone,standing]

lemma next_count_le (e : Signal σ ι) : d.count ≤ (d.next A e).count := by
  cases e with
  | opened s => exact Nat.le_succ _
  | deliver f => exact Nat.le_refl _

lemma alone_append (s : Option σ) (is js : List ι) :
    alone A s (is ++ js) = alone A s is ++ alone A (standing A s is) js ∧
      standing A s (is ++ js) = standing A (standing A s is) js := by
  induction is generalizing s with
  | nil => simp
  | cons i is ih =>
    cases s with
    | none => simp
    | some s =>
      obtain ⟨hout,hstand⟩ := ih (A s i).2
      simp only [List.cons_append,alone,standing,hout,hstand,List.append_assoc,and_self]

/-- A session goes through a run on its own inputs. -/
theorem Numbered.run_own (h : d.Numbered) (es : List (Signal σ ι)) {n : ℕ} (hn : n < d.count) :
    (d.run A es).live.lookup n = standing A (d.live.lookup n) (es.filterMap (Signal.own n)) ∧
      (d.run A es).outOf n = d.outOf n ++
        alone A (d.live.lookup n) (es.filterMap (Signal.own n)) := by
  induction es generalizing d with
  | nil => simp [Demux.run]
  | cons e es ih =>
    obtain ⟨hlive,hout⟩ := h.next_own (A := A) e hn
    obtain ⟨hlive',hout'⟩ := ih (h.next e) (Nat.lt_of_lt_of_le hn (next_count_le e))
    have hfilter : (e::es).filterMap (Signal.own n) =
        (e.own n).toList ++ es.filterMap (Signal.own n) := by
      cases ho : e.own n with
      | none => rw [List.filterMap_cons_none ho]; rfl
      | some i => rw [List.filterMap_cons_some ho]; rfl
    obtain ⟨halone,hstand⟩ := alone_append (A := A) (d.live.lookup n) (e.own n).toList
      (es.filterMap (Signal.own n))
    rw [hfilter,halone,hstand]
    change ((d.next A e).run A es).live.lookup n = _ ∧ ((d.next A e).run A es).outOf n = _
    rw [hlive',hout',hlive,hout,List.append_assoc]
    exact ⟨rfl,rfl⟩

end Demux
end Interleaving
