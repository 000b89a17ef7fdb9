import Mathlib.Data.List.Basic
import Mathlib.Logic.Function.Basic
import Mathlib.Tactic.Basic

/-! The endpoint of a bridge: the lock of its state directory, the socket file that its clients connect
to, and the `runtime` record. Any number of listeners may be started, and any of them may be killed at
any time; the kernel then closes its socket and releases its lock, and the file stays. Meanwhile other
commands ask for a stop, withdraw it, and save configurations. -/
namespace PeerChat.Serve

/-- How far a process has got in `serve`. -/
inductive Stage
  | starting
  /-- It has found a configuration, or none. -/
  | read (found : Bool)
  /-- It has not been asked to stop. -/
  | checked
  | locked
  /-- A socket is there; it is about to be connected to. -/
  | probing
  /-- The connection has been refused. -/
  | stale
  /-- Nothing is there. -/
  | clear
  | bound
  | listening
  /-- The request to stop has been cleared. -/
  | reset
  /-- The loop, with `runtime` written. -/
  | serving
  /-- The loop has been left and the socket closed. -/
  | closed
  | unlinked
  /-- `runtime` has been cleared. -/
  | retired
  | ended
  deriving DecidableEq

/-- What is at the path of the endpoint. -/
inductive Node
  | socket (owner : ℕ)
  /-- A socket that was left before all this. -/
  | dead
  /-- The socket of another program, which accepts. -/
  | foreign
  /-- No socket. -/
  | other
  deriving DecidableEq

structure Site where
  node : Option Node
  runtime : Option ℕ := none
  lock : Option ℕ := none
  stage : ℕ → Option Stage := fun _ => none
  stop : Bool := false
  /-- A configuration has been saved. -/
  config : Bool := true

inductive Event
  | start (i : ℕ)
  | step (i : ℕ)
  | crash (i : ℕ)
  /-- Another process writes the `stop` key. -/
  | request (stop : Bool)
  | configure

/-- The kernel completes connections to a listening socket. -/
def Stage.accepts : Stage → Bool
  | .listening | .reset | .serving => true
  | _ => false

namespace Site
variable (s : Site) (i : ℕ)

def answers : Node → Bool
  | .socket owner => (s.stage owner).any Stage.accepts
  | .foreign => true
  | .dead | .other => false

def goto (next : Stage) : Site := { s with stage := Function.update s.stage i (some next) }

/-- The end of a process, by an exception or otherwise. -/
def exit : Site :=
  { s.goto i .ended with lock := if s.lock = some i then none else s.lock }

/-- The next system call of a process. -/
def step : Stage → Site
  | .starting => s.goto i (.read s.config)
  | .read found => if s.stop then s.exit i else if found then s.goto i .checked else s.exit i
  | .checked => if s.lock = none then { s.goto i .locked with lock := some i } else s.exit i
  | .locked =>
    match s.node with
    | none => s.goto i .clear
    | some .other => s.exit i
    | some _ => s.goto i .probing
  | .probing =>
    match s.node with
    | none => s.exit i
    | some node => if s.answers node then s.exit i else s.goto i .stale
  | .stale => if s.node = none then s.exit i else { s.goto i .clear with node := none }
  | .clear => if s.node = none then { s.goto i .bound with node := some (.socket i) } else s.exit i
  | .bound => s.goto i .listening
  | .listening => { s.goto i .reset with stop := false }
  | .reset => { s.goto i .serving with runtime := some i }
  | .serving => s.goto i .closed
  | .closed => { s.goto i .unlinked with node := none }
  | .unlinked => { s.goto i .retired with runtime := none }
  | .retired => s.exit i
  | .ended => s

def next : Event → Site
  | .start i => if s.stage i = none then s.goto i .starting else s
  | .step i =>
    match s.stage i with
    | some stage => s.step i stage
    | none => s
  | .crash i => if s.stage i = none then s else s.exit i
  | .request stop => { s with stop := stop }
  | .configure => { s with config := true }

def run (es : List Event) : Site := es.foldl next s

end Site

/-- The stages in which a process has the lock. -/
def Stage.holds : Stage → Bool
  | .starting | .read _ | .checked | .ended => false
  | _ => true

/-- What the holder of the lock knows at each stage. -/
def Holder (s : Site) (i : ℕ) : Stage → Prop
  | .probing => ∃ node, s.node = some node
  | .stale => ∃ node, s.node = some node ∧ s.answers node = false
  | .clear => s.node = none
  | .bound | .listening | .reset => s.node = some (.socket i)
  | .serving | .closed => s.node = some (.socket i) ∧ s.runtime = some i
  | .unlinked => s.runtime = some i
  | .starting | .read _ | .checked | .ended => False
  | .locked | .retired => True

/-- The lock has a living holder, which knows what it needs, and no other process is past the lock. -/
structure Guarded (s : Site) : Prop where
  holder : ∀ i, s.lock = some i → ∃ stage, s.stage i = some stage ∧ Holder s i stage
  others : ∀ i stage, s.stage i = some stage → stage.holds = true → s.lock = some i

/-- Before any process: whatever has been left at the path, and in the record. -/
lemma guarded_left (node : Option Node) (runtime : Option ℕ) (stop config : Bool) :
    Guarded ⟨node,runtime,none,fun _ => none,stop,config⟩ where
  holder i hi := by cases hi
  others i stage hi _ := by cases hi

lemma Holder.holds {s : Site} {i : ℕ} {stage : Stage} (h : Holder s i stage) : stage.holds = true := by
  cases stage with
  | starting => exact h.elim
  | read _ => exact h.elim
  | checked => exact h.elim
  | ended => exact h.elim
  | _ => rfl

variable {s : Site} {i : ℕ}

/-- Only the holder of the lock accepts connections. -/
lemma Guarded.accepting (h : Guarded s) {j : ℕ} (hj : (s.stage j).any Stage.accepts = true) :
    s.lock = some j := by
  obtain ⟨stage,hstage,haccepts⟩ := (Option.any_eq_true ..).mp hj
  refine h.others j stage hstage ?_
  cases stage with
  | listening => rfl
  | reset => rfl
  | serving => rfl
  | _ => cases haccepts

/-- The holder of the lock takes a step that leaves it the lock, and knows what it needs again. -/
lemma Guarded.go (h : Guarded s) (hlock : s.lock = some i) {t : Site} {next : Stage}
    (htlock : t.lock = some i) (hstage : t.stage = Function.update s.stage i (some next))
    (hnext : Holder t i next) : Guarded t where
  holder j hj := by
    rw [htlock] at hj
    cases hj
    exact ⟨next,by rw [hstage,Function.update_self],hnext⟩
  others j stage hj hholds := by
    rw [hstage] at hj
    by_cases hij : j = i
    · rw [hij,htlock]
    · rw [Function.update_of_ne hij] at hj
      have hother := h.others j stage hj hholds
      rw [hlock] at hother
      exact absurd (Option.some.inj hother).symm hij

/-- What the holder of the lock knows does not depend on where the others are. -/
lemma Holder.frame {t : Site} {stage : Stage} (h : Holder s i stage) (hnode : t.node = s.node)
    (hruntime : t.runtime = s.runtime)
    (hanswers : ∀ node, s.answers node = false → t.answers node = false) : Holder t i stage := by
  cases stage with
  | stale =>
    obtain ⟨node,hnode',hrefused⟩ := h
    exact ⟨node,hnode.trans hnode',hanswers node hrefused⟩
  | probing => exact h.imp fun node hnode' => hnode.trans hnode'
  | clear => exact hnode.trans h
  | bound => exact hnode.trans h
  | listening => exact hnode.trans h
  | reset => exact hnode.trans h
  | serving => exact ⟨hnode.trans h.1,hruntime.trans h.2⟩
  | closed => exact ⟨hnode.trans h.1,hruntime.trans h.2⟩
  | unlinked => exact hruntime.trans h
  | _ => exact h

/-- A process that comes, or goes, without the lock. -/
lemma Guarded.aside (h : Guarded s) {t : Site} {next : Stage} (hne : s.lock ≠ some i)
    (hnode : t.node = s.node) (hruntime : t.runtime = s.runtime) (hlock : t.lock = s.lock)
    (hstage : t.stage = Function.update s.stage i (some next)) (hnext : next.holds = false)
    (haccepts : next.accepts = false) : Guarded t where
  holder j hj := by
    rw [hlock] at hj
    obtain ⟨stage,hj',hholder⟩ := h.holder j hj
    have hij : j ≠ i := by
      intro he
      rw [he] at hj
      exact hne hj
    refine ⟨stage,by rw [hstage,Function.update_of_ne hij,hj'],hholder.frame hnode hruntime ?_⟩
    intro node hrefused
    cases node with
    | socket owner =>
      simp only [Site.answers] at hrefused ⊢
      by_cases howner : owner = i
      · rw [howner,hstage,Function.update_self,Option.any_some,haccepts]
      · rwa [hstage,Function.update_of_ne howner]
    | _ => exact hrefused
  others j stage hj hholds := by
    rw [hstage] at hj
    by_cases hij : j = i
    · rw [hij,Function.update_self] at hj
      cases hj
      rw [hnext] at hholds
      cases hholds
    · rw [Function.update_of_ne hij] at hj
      rw [hlock]
      exact h.others j stage hj hholds

/-- A process that has not come to the lock yet. -/
lemma Guarded.before (h : Guarded s) {t : Site} {stage next : Stage} (hi : s.stage i = some stage)
    (hstage : stage.holds = false) (hnode : t.node = s.node) (hruntime : t.runtime = s.runtime)
    (hlock : t.lock = s.lock) (hupdate : t.stage = Function.update s.stage i (some next))
    (hnext : next.holds = false) (haccepts : next.accepts = false) : Guarded t := by
  refine h.aside ?_ hnode hruntime hlock hupdate hnext haccepts
  intro hown
  obtain ⟨stage',hi',hholder⟩ := h.holder i hown
  rw [hi] at hi'
  cases hi'
  have hholds := hholder.holds
  rw [hstage] at hholds
  cases hholds

lemma Guarded.exit (h : Guarded s) (i : ℕ) : Guarded (s.exit i) := by
  by_cases hlock : s.lock = some i
  · have hfree : (s.exit i).lock = none := by
      unfold Site.exit
      rw [if_pos hlock]
    refine ⟨fun j hj => ?_,fun j stage hj hholds => ?_⟩
    · rw [hfree] at hj
      cases hj
    · by_cases hij : j = i
      · subst hij
        simp only [Site.exit,Site.goto,Function.update_self] at hj
        cases hj
        cases hholds
      · simp only [Site.exit,Site.goto,Function.update_of_ne hij] at hj
        have hother := h.others j stage hj hholds
        rw [hlock] at hother
        exact absurd (Option.some.inj hother).symm hij
  · exact h.aside hlock rfl rfl (by simp only [Site.exit,if_neg hlock]) rfl rfl rfl

/-- Whoever is past the lock has it, and knows what it needs. -/
lemma Guarded.knows (h : Guarded s) {stage : Stage} (hi : s.stage i = some stage)
    (hholds : stage.holds = true) : s.lock = some i ∧ Holder s i stage := by
  have hlock := h.others i stage hi hholds
  obtain ⟨stage',hi',hholder⟩ := h.holder i hlock
  rw [hi] at hi'
  cases hi'
  exact ⟨hlock,hholder⟩

/-- A socket that refuses connections goes on to do so while its prober moves on. -/
lemma answers_goto {next : Stage} (haccepts : next.accepts = false) {node : Node}
    (h : s.answers node = false) : (s.goto i next).answers node = false := by
  cases node with
  | socket owner =>
    simp only [Site.answers,Site.goto] at h ⊢
    by_cases howner : owner = i
    · rw [howner,Function.update_self,Option.any_some,haccepts]
    · rwa [Function.update_of_ne howner]
  | _ => exact h

lemma Guarded.step (h : Guarded s) {stage : Stage} (hi : s.stage i = some stage) :
    Guarded (s.step i stage) := by
  cases stage with
  | starting => exact h.before hi rfl rfl rfl rfl rfl rfl rfl
  | read found =>
    simp only [Site.step]
    split_ifs
    · exact h.exit i
    · exact h.before hi rfl rfl rfl rfl rfl rfl rfl
    · exact h.exit i
  | checked =>
    simp only [Site.step]
    split_ifs with hfree
    · refine ⟨fun j hj => ?_,fun j stage hj hholds => ?_⟩
      · cases hj
        exact ⟨.locked,by simp [Site.goto],trivial⟩
      · by_cases hij : j = i
        · rw [hij]
        · simp only [Site.goto,Function.update_of_ne hij] at hj
          cases hfree.symm.trans (h.others j stage hj hholds)
    · exact h.exit i
  | ended => exact h
  | locked =>
    obtain ⟨hlock,-⟩ := h.knows hi rfl
    simp only [Site.step]
    cases hnode : s.node with
    | none => exact h.go hlock hlock rfl hnode
    | some node =>
      cases node with
      | other => exact h.exit i
      | _ => exact h.go hlock hlock rfl ⟨_,hnode⟩
  | probing =>
    obtain ⟨hlock,node,hnode⟩ := h.knows hi rfl
    simp only [Site.step,hnode]
    split_ifs with hanswers
    · exact h.exit i
    · have hrefused : s.answers node = false := by simpa using hanswers
      exact h.go hlock hlock rfl ⟨node,hnode,answers_goto rfl hrefused⟩
  | stale =>
    obtain ⟨hlock,-⟩ := h.knows hi rfl
    simp only [Site.step]
    split_ifs
    · exact h.exit i
    · exact h.go hlock hlock rfl rfl
  | clear =>
    obtain ⟨hlock,-⟩ := h.knows hi rfl
    simp only [Site.step]
    split_ifs
    · exact h.go hlock hlock rfl rfl
    · exact h.exit i
  | bound =>
    obtain ⟨hlock,hnode⟩ := h.knows hi rfl
    exact h.go hlock hlock rfl hnode
  | listening =>
    obtain ⟨hlock,hnode⟩ := h.knows hi rfl
    exact h.go hlock hlock rfl hnode
  | reset =>
    obtain ⟨hlock,hnode⟩ := h.knows hi rfl
    exact h.go hlock hlock rfl ⟨hnode,rfl⟩
  | serving =>
    obtain ⟨hlock,hnode,hruntime⟩ := h.knows hi rfl
    exact h.go hlock hlock rfl ⟨hnode,hruntime⟩
  | closed =>
    obtain ⟨hlock,-,hruntime⟩ := h.knows hi rfl
    exact h.go hlock hlock rfl hruntime
  | unlinked =>
    obtain ⟨hlock,-⟩ := h.knows hi rfl
    exact h.go hlock hlock rfl trivial
  | retired => exact h.exit i

/-- Other keys of the store do not matter. -/
lemma Guarded.written (h : Guarded s) {t : Site} (hnode : t.node = s.node)
    (hruntime : t.runtime = s.runtime) (hlock : t.lock = s.lock) (hstage : t.stage = s.stage) :
    Guarded t where
  holder i hi := by
    rw [hlock] at hi
    obtain ⟨stage,hi',hholder⟩ := h.holder i hi
    refine ⟨stage,by rw [hstage,hi'],hholder.frame hnode hruntime fun node hrefused => ?_⟩
    cases node with
    | socket owner =>
      simp only [Site.answers] at hrefused ⊢
      rwa [hstage]
    | _ => exact hrefused
  others i stage hi hholds := by
    rw [hlock]
    exact h.others i stage (by rw [← hstage]; exact hi) hholds

lemma Guarded.next (h : Guarded s) (e : Event) : Guarded (s.next e) := by
  cases e with
  | start i =>
    simp only [Site.next]
    split_ifs with hnew
    · have hne : s.lock ≠ some i := by
        intro hlock
        obtain ⟨stage,hstage,-⟩ := h.holder i hlock
        cases hnew.symm.trans hstage
      exact h.aside hne rfl rfl rfl rfl rfl rfl
    · exact h
  | step i =>
    simp only [Site.next]
    cases hi : s.stage i with
    | none => exact h
    | some stage => exact h.step hi
  | crash i =>
    simp only [Site.next]
    split_ifs
    · exact h
    · exact h.exit i
  | request stop => exact h.written rfl rfl rfl rfl
  | configure => exact h.written rfl rfl rfl rfl

lemma Guarded.run (h : Guarded s) (es : List Event) : Guarded (s.run es) := by
  induction es generalizing s with
  | nil => exact h
  | cons e es ih => exact ih (h.next e)

/-- What is at the path is taken away only when it refuses connections. -/
lemma Guarded.taken (h : Guarded s) (e : Event) {node : Node} (hnode : s.node = some node)
    (htaken : (s.next e).node ≠ some node) : s.answers node = false := by
  cases e with
  | start i =>
    simp only [Site.next] at htaken
    split_ifs at htaken
    · exact absurd hnode htaken
    · exact absurd hnode htaken
  | crash i =>
    simp only [Site.next] at htaken
    split_ifs at htaken
    · exact absurd hnode htaken
    · exact absurd hnode htaken
  | request stop => exact absurd hnode htaken
  | configure => exact absurd hnode htaken
  | step i =>
    simp only [Site.next] at htaken
    cases hi : s.stage i with
    | none =>
      simp only [hi] at htaken
      exact absurd hnode htaken
    | some stage =>
      simp only [hi] at htaken
      cases stage with
      | stale =>
        obtain ⟨-,found,hfound,hrefused⟩ := h.knows hi rfl
        rw [hnode] at hfound
        cases hfound
        exact hrefused
      | clear =>
        obtain ⟨-,hclear⟩ := h.knows hi rfl
        cases hclear.symm.trans hnode
      | closed =>
        obtain ⟨-,hown,-⟩ := h.knows hi rfl
        rw [hnode] at hown
        cases hown
        simp [Site.answers,hi,Stage.accepts]
      | locked =>
        simp only [Site.step,hnode] at htaken
        cases node <;> exact absurd hnode htaken
      | probing =>
        simp only [Site.step,hnode] at htaken
        split_ifs at htaken
        · exact absurd hnode htaken
        · exact absurd hnode htaken
      | read found =>
        simp only [Site.step] at htaken
        split_ifs at htaken
        · exact absurd hnode htaken
        · exact absurd hnode htaken
        · exact absurd hnode htaken
      | checked =>
        simp only [Site.step] at htaken
        split_ifs at htaken
        · exact absurd hnode htaken
        · exact absurd hnode htaken
      | _ => exact absurd hnode htaken

/-- In every history of listeners that are started, step in any order and are killed at any time, while
others write to the store, and whatever was left at the path before: a listener that serves is the only one, clients that connect to the
path reach it, and the `runtime` record names it. No step takes away what accepts connections: a listener
that is started late does not unlink the socket of one that serves, and one that ends late does not
unlink the socket of its successor. -/
theorem endpoint_owned (node : Option Node) (runtime : Option ℕ) (stop config : Bool)
    (es : List Event) :
    let s := Site.run ⟨node,runtime,none,fun _ => none,stop,config⟩ es
    (∀ i, s.stage i = some .serving → s.node = some (.socket i) ∧ s.runtime = some i ∧
        ∀ j, s.stage j = some .serving → j = i) ∧
      ∀ e found, s.node = some found → s.answers found = true → (s.next e).node = some found := by
  dsimp only
  have hguarded := (guarded_left node runtime stop config).run es
  refine ⟨fun i hi => ?_,fun e found hfound hanswers => ?_⟩
  · obtain ⟨hlock,hnode,hruntime⟩ := hguarded.knows hi rfl
    refine ⟨hnode,hruntime,fun j hj => ?_⟩
    obtain ⟨hlock',-⟩ := hguarded.knows hj rfl
    rw [hlock] at hlock'
    exact (Option.some.inj hlock').symm
  · by_contra htaken
    rw [hguarded.taken e hfound htaken] at hanswers
    cases hanswers

/-! Recovery. -/

/-- Nothing but sockets of these listeners, and of those before them, is ever at the path. -/
def Site.OwnNode (s : Site) : Prop := s.node ≠ some .foreign ∧ s.node ≠ some .other

lemma next_node (s : Site) (e : Event) :
    (s.next e).node = s.node ∨ (s.next e).node = none ∨ ∃ i, (s.next e).node = some (.socket i) := by
  cases e with
  | start i =>
    simp only [Site.next]
    split_ifs <;> exact Or.inl rfl
  | crash i =>
    simp only [Site.next]
    split_ifs <;> exact Or.inl rfl
  | request stop => exact Or.inl rfl
  | configure => exact Or.inl rfl
  | step i =>
    simp only [Site.next]
    cases s.stage i with
    | none => exact Or.inl rfl
    | some stage =>
      cases stage with
      | read found =>
        simp only [Site.step]
        split_ifs <;> exact Or.inl rfl
      | checked =>
        simp only [Site.step]
        split_ifs <;> exact Or.inl rfl
      | locked =>
        simp only [Site.step]
        split <;> exact Or.inl rfl
      | probing =>
        simp only [Site.step]
        split
        · exact Or.inl rfl
        · split_ifs <;> exact Or.inl rfl
      | stale =>
        simp only [Site.step]
        split_ifs
        · exact Or.inl rfl
        · exact Or.inr (Or.inl rfl)
      | clear =>
        simp only [Site.step]
        split_ifs
        · exact Or.inr (Or.inr ⟨i,rfl⟩)
        · exact Or.inl rfl
      | closed => exact Or.inr (Or.inl rfl)
      | _ => exact Or.inl rfl

lemma Site.OwnNode.run {s : Site} (h : s.OwnNode) (es : List Event) : (s.run es).OwnNode := by
  induction es generalizing s with
  | nil => exact h
  | cons e es ih =>
    refine ih ?_
    unfold Site.OwnNode at h ⊢
    obtain he | he | ⟨i,he⟩ := next_node s e
    · rw [he]
      exact h
    · rw [he]
      simp
    · rw [he]
      simp

/-- With the lock free, nobody answers at the path. -/
lemma Guarded.refused (h : Guarded s) (hlock : s.lock = none) (hown : s.OwnNode) {node : Node}
    (hnode : s.node = some node) : s.answers node = false := by
  cases node with
  | socket owner =>
    by_contra hanswers
    have hany : (s.stage owner).any Stage.accepts = true := by simpa [Site.answers] using hanswers
    cases hlock.symm.trans (h.accepting hany)
  | dead => rfl
  | foreign => exact absurd hnode hown.1
  | other => exact absurd hnode hown.2

def Site.Serves (s : Site) (i : ℕ) : Prop :=
  s.stage i = some .serving ∧ s.node = some (.socket i) ∧ s.runtime = some i ∧ s.stop = false

/-- The last steps of a startup. -/
lemma serves_of_clear (hstage : s.stage i = some .clear) (hnode : s.node = none) :
    (s.run (List.replicate 4 (.step i))).Serves i := by
  simp [Site.Serves,Site.run,List.replicate,Site.next,Site.step,Site.goto,hstage,hnode]

lemma run_append (s : Site) (es fs : List Event) : s.run (es ++ fs) = (s.run es).run fs :=
  List.foldl_append

/-- A startup comes to the lock, and takes it, if nobody has asked for a stop. -/
lemma locks (hfresh : s.stage i = none) (hlock : s.lock = none) (hstop : s.stop = false)
    (hconfig : s.config = true) : s.run (.start i :: List.replicate 3 (.step i)) =
      { ((((s.goto i .starting).goto i (.read true)).goto i .checked).goto i .locked) with
        lock := some i } := by
  simp [Site.run,List.replicate,Site.next,Site.step,Site.goto,hfresh,hlock,hstop,hconfig]

/-- A startup that nothing disturbs. -/
lemma Guarded.starts (h : Guarded s) (hown : s.OwnNode) (hfresh : s.stage i = none)
    (hlock : s.lock = none) (hstop : s.stop = false) (hconfig : s.config = true) :
    ∃ k, (s.run (.start i :: List.replicate k (.step i))).Serves i := by
  have hlocks := locks hfresh hlock hstop hconfig
  set before := (((s.goto i .starting).goto i (.read true)).goto i .checked).goto i .locked
  let locked : Site := { before with lock := some i }
  have hstage : locked.stage i = some .locked := by simp [locked,before,Site.goto]
  cases hnode : s.node with
  | none =>
    have hempty : locked.node = none := hnode
    refine ⟨8,?_⟩
    rw [show Event.start i :: List.replicate 8 (.step i) =
      (.start i :: List.replicate 3 (.step i)) ++ (.step i :: List.replicate 4 (.step i)) from rfl,
      run_append,hlocks]
    have hclear : locked.next (.step i) = locked.goto i .clear := by
      simp only [Site.next,hstage,Site.step,hempty]
    change ((locked.next (.step i)).run (List.replicate 4 (.step i))).Serves i
    rw [hclear]
    exact serves_of_clear (by simp [Site.goto]) hempty
  | some node =>
    -- the connection of the probe is refused
    have hrefused := h.refused hlock hown hnode
    have hlocked : locked.answers node = false :=
      answers_goto rfl (answers_goto rfl (answers_goto rfl (answers_goto rfl hrefused)))
    have hprobing : (locked.goto i .probing).answers node = false := answers_goto rfl hlocked
    have hnode' : locked.node = some node := hnode
    have hprobe : locked.next (.step i) = locked.goto i .probing := by
      cases node with
      | other => exact absurd hnode hown.2
      | _ => simp only [Site.next,hstage,Site.step,hnode']
    have hstale : (locked.goto i .probing).next (.step i) =
        (locked.goto i .probing).goto i .stale := by
      have hat : (locked.goto i .probing).node = some node := hnode
      have hstage : (locked.goto i .probing).stage i = some .probing := by simp [Site.goto]
      simp only [Site.next,hstage,Site.step,hat,hprobing]
      rfl
    refine ⟨10,?_⟩
    rw [show Event.start i :: List.replicate 10 (.step i) =
      (.start i :: List.replicate 3 (.step i)) ++ (List.replicate 3 (.step i) ++
        List.replicate 4 (.step i)) from rfl,run_append,run_append,hlocks]
    change (((((locked.next (.step i)).next (.step i)).next (.step i)).run
      (List.replicate 4 (.step i)))).Serves i
    rw [hprobe,hstale]
    have hat : ((locked.goto i .probing).goto i .stale).node = some node := hnode
    have hstage : ((locked.goto i .probing).goto i .stale).stage i = some .stale := by
      simp [Site.goto]
    apply serves_of_clear
    · simp only [Site.next,hstage,Site.step,hat]
      simp [Site.goto]
    · simp only [Site.next,hstage,Site.step,hat]
      simp

/-- Whatever listeners have done and wherever they were killed: once none of them has the lock, a
configuration has been saved and nobody asks for a stop, the next one that is started gets to serve. A
socket file that was left never blocks it. -/
theorem restart_serves {node : Option Node} (hforeign : node ≠ some .foreign)
    (hother : node ≠ some .other) (runtime : Option ℕ) (stop config : Bool) (es : List Event) (i : ℕ) :
    let s := Site.run ⟨node,runtime,none,fun _ => none,stop,config⟩ es
    s.stage i = none → s.lock = none → s.stop = false → s.config = true →
      ∃ k, (s.run (.start i :: List.replicate k (.step i))).Serves i := by
  intro s hfresh hlock hstop hconfig
  have hown : Site.OwnNode ⟨node,runtime,none,fun _ => none,stop,config⟩ := ⟨hforeign,hother⟩
  exact ((guarded_left node runtime stop config).run es).starts (hown.run es) hfresh hlock hstop
    hconfig

/-- A listener that serves is asked to stop and killed, and the request is withdrawn. -/
def killed : List Event :=
  .start 0 :: List.replicate 8 (.step 0) ++ [.request true,.crash 0,.request false]

theorem restart_serves_killed :
    ∃ k, ((Site.run ⟨none,none,none,fun _ => none,false,true⟩ killed).run
      (.start 1 :: List.replicate k (.step 1))).Serves 1 :=
  restart_serves (by decide) (by decide) none false true killed 1 (by decide) (by decide) (by decide)
    (by decide)

end PeerChat.Serve
