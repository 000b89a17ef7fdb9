import PeerChat.Interleaving.Alone
import PeerChat.Setup.Recoverable

/-! A setup finishes what others have left. -/
namespace PeerChat.Setup
open Python Interleaving
open Python.Json (Writable)

/-! A setup that nothing disturbs. -/

/-- No file is a link, and there is room for so many characters. -/
structure Clear (n : ℕ) (d : Disk) : Prop where
  linked : ∀ place, d.linked place = false
  room : n ≤ d.room

@[simp] lemma look_same (d : Disk) : apply DiskOp.look d = d := rfl

@[simp] lemma stage_same (text : Str) (d : Disk) : apply (DiskOp.stage text) d = d := rfl

lemma Clear.replace {n : ℕ} {d : Disk} (h : Clear n d) (place : Place) (text : Str) :
    Clear n (apply (DiskOp.replace place text) d) where
  linked place' := by
    change Function.update d.linked place false place' = false
    by_cases hplace : place' = place
    · subst hplace
      rw [Function.update_self]
    · rw [Function.update_of_ne hplace]
      exact h.linked place'
  room := h.room

lemma andThen_ok {α β : Type} {p : DiskCode (Except InstallError α)}
    {q : α → DiskCode (Except InstallError β)} {d : Disk} {a : α} (h : p.value d = .ok a) :
    (andThen p q).value d = (q a).value (p.run d) ∧ (andThen p q).run d = (q a).run (p.run d) := by
  rw [andThen,Prog.value_bind,Prog.run_bind,h]
  exact ⟨rfl,rfl⟩

variable (codexHome : Str) {n : ℕ} {d : Disk}

lemma atomicWrite_clear (h : Clear n d) (place : Place) {text : Str} (ht : text.length ≤ n) :
    (atomicWrite codexHome place text).value d = .ok () ∧
    (atomicWrite codexHome place text).run d = apply (DiskOp.replace place text) d := by
  have hroom : text.length ≤ d.room := ht.trans h.room
  constructor
  · simp [atomicWrite,inspect,Prog.perform,h.linked place,hroom]
  · simp [atomicWrite,inspect,Prog.perform,h.linked place,hroom]

lemma keepOriginal_clear (h : Clear n d) {old : Option Str}
    (hold : ∀ text, old = some text → text.length ≤ n) :
    (keepOriginal codexHome old).value d = .ok () ∧
    Clear n ((keepOriginal codexHome old).run d) := by
  cases old with
  | none => exact ⟨rfl,h⟩
  | some text =>
    obtain ⟨hvalue,hrun⟩ := atomicWrite_clear codexHome h .backup (hold text rfl)
    cases hkept : (d.text .backup).isSome with
    | true => simp [keepOriginal,inspect,hkept,h]
    | false =>
      simp [keepOriginal,inspect,hkept,hvalue,hrun,h.replace]

lemma installSkills_clear {skill : Str} (hskill : skill.length ≤ n) (homes : List Str)
    (h : Clear n d) :
    (installSkills codexHome skill homes).value d = .ok () ∧
    ((installSkills codexHome skill homes).run d).text .hooks = d.text .hooks := by
  induction homes generalizing d with
  | nil => exact ⟨rfl,rfl⟩
  | cons home homes ih =>
    have hnext : ∀ d, Clear n d →
        (andThen (atomicWrite codexHome (.skill home) skill) fun _ =>
          installSkills codexHome skill homes).value d = .ok () ∧
        ((andThen (atomicWrite codexHome (.skill home) skill) fun _ =>
          installSkills codexHome skill homes).run d).text .hooks = d.text .hooks := by
      intro d h
      obtain ⟨hvalue,hrun⟩ := atomicWrite_clear codexHome h (.skill home) hskill
      obtain ⟨hv,hr⟩ := andThen_ok (q := fun _ => installSkills codexHome skill homes) hvalue
      obtain ⟨hdone,htext⟩ := ih (h.replace (.skill home) skill)
      rw [hv,hr,hrun]
      exact ⟨hdone,htext.trans (text_replace (by intro h; cases h))⟩
    have hunlinked : Clear n (apply (DiskOp.unlinkSkill home) d) := ⟨h.linked,h.room⟩
    cases hlinked : d.skillLinked home with
    | true =>
      obtain ⟨hvalue,htext⟩ := hnext _ hunlinked
      simp only [installSkills,inspect,Prog.act_bind,Prog.ret_bind,Prog.value_act,Prog.run_act,
        Prog.perform_bind,look_same,hlinked,if_true]
      exact ⟨hvalue,htext⟩
    | false =>
      obtain ⟨hvalue,htext⟩ := hnext d h
      simp only [installSkills,inspect,Prog.act_bind,Prog.ret_bind,Prog.value_act,Prog.run_act,
        look_same,hlinked]
      exact ⟨hvalue,htext⟩

lemma readHooks_clear (d : Disk) :
    readHooks.value d = .ok (d.text .hooks) ∧ readHooks.run d = d := by
  cases htext : d.text .hooks with
  | none => simp [readHooks,inspect,htext]
  | some text => simp [readHooks,inspect,htext]

lemma installHooks_clear (h : Clear n d) {x y : Json} {command : Str} {remove : Bool}
    (hx : existing (d.text .hooks) = .ok x) (hy : mergeHooks x command remove = some y)
    (hold : ∀ text, d.text .hooks = some text → text.length ≤ n)
    (hnew : (documentText y).length ≤ n) :
    (installHooks codexHome command remove (d.text .hooks)).value d = .ok () ∧
    Clear n ((installHooks codexHome command remove (d.text .hooks)).run d) ∧
    ((installHooks codexHome command remove (d.text .hooks)).run d).text .hooks =
      some (documentText y) := by
  unfold installHooks
  simp only [hx,hy]
  split_ifs with hsame
  · exact ⟨rfl,h,hsame⟩
  obtain ⟨hkept,hclear⟩ := keepOriginal_clear codexHome h hold
  obtain ⟨hvalue,hrun⟩ := atomicWrite_clear codexHome hclear .hooks hnew
  obtain ⟨hv,hr⟩ :=
    andThen_ok (q := fun _ => atomicWrite codexHome .hooks (documentText y)) hkept
  rw [hv,hr,hvalue,hrun]
  exact ⟨rfl,hclear.replace _ _,text_replaced ..⟩

/-- No link is among the files, and there is room for what the setup writes. -/
structure Free (task : InstallTask) (d : Disk) : Prop where
  linked : ∀ place, d.linked place = false
  old : ∀ text, d.text .hooks = some text → text.length ≤ d.room
  new : ∀ x y, existing (d.text .hooks) = .ok x →
    mergeHooks x task.command task.remove = some y → (documentText y).length ≤ d.room
  skill : task.skill.length ≤ d.room

lemma install_clear {task : InstallTask} (h : Free task d) {x y : Json}
    (hx : existing (d.text .hooks) = .ok x)
    (hy : mergeHooks x task.command task.remove = some y) :
    (install codexHome task).value d = .ok () ∧
    ((install codexHome task).run d).text .hooks = some (documentText y) := by
  have hfirst : Clear d.room d := ⟨h.linked,le_rfl⟩
  obtain ⟨hread,hsame⟩ := readHooks_clear d
  obtain ⟨hdone,hclear,htext⟩ :=
    installHooks_clear codexHome hfirst hx hy h.old (h.new x y hx hy)
  obtain ⟨hv,hr⟩ := andThen_ok (q := fun old =>
    andThen (installHooks codexHome task.command task.remove old) fun _ =>
      if task.remove then .ret (.ok ())
      else installSkills codexHome task.skill (codexHome :: task.claudeHomes).eraseDups) hread
  obtain ⟨hv',hr'⟩ := andThen_ok (q := fun _ => if task.remove then .ret (.ok ())
    else installSkills codexHome task.skill (codexHome :: task.claudeHomes).eraseDups) hdone
  unfold install
  rw [hv,hr,hsame,hv',hr']
  split_ifs
  · exact ⟨rfl,htext⟩
  · obtain ⟨hskills,hother⟩ := installSkills_clear codexHome h.skill
      (codexHome :: task.claudeHomes).eraseDups hclear
    exact ⟨hskills,hother.trans htext⟩

/-- Wherever setups have ended before, one that nothing disturbs finishes: all of the bridge's hooks
are there, or none after a removal, and what others had put there at first still is. Again the commands
have no lone surrogates, and the first document is one that `json.loads` reads. -/
theorem setup_recovers {x : Json} (hx : existing (d.text .hooks) = .ok x) (hdocument : Document x)
    (hw : Writable x) (hbackup : d.text .backup = none) (es : List (Event InstallTask DiskOp))
    (task : InstallTask) {last : Disk}
    (hlast : ((installer codexHome).final (Pool.idle d) es).state = last) (hfree : Free task last) :
    (install codexHome task).value last = .ok () ∧
    ∃ y, existing (((install codexHome task).run last).text .hooks) = .ok y ∧ Preserves x y ∧
      ∀ event ∈ EVENTS, if task.remove then Uninstalled event y else Installed event y := by
  have hrecoverable := recoverable_final codexHome hx hw hbackup es
  rw [hlast] at hrecoverable
  obtain ⟨y,hy,hpreserves,hwritable,hagain⟩ := existing_genuine hx hrecoverable.genuine
  obtain ⟨z,hz⟩ := mergeHooks_isSome (hagain hdocument) task.command task.remove
  have hwritten := written_merge task.scalar (hwritable hw) hpreserves hz
  obtain ⟨hdone,htext⟩ := install_clear codexHome hfree hy hz
  refine ⟨hdone,z,?_,hwritten.preserves,fun event he => ?_⟩
  · rw [htext]
    exact existing_document hwritten
  · cases hremove : task.remove with
    | true =>
      rw [hremove] at hz
      exact merge_uninstalled hz he
    | false =>
      rw [hremove] at hz
      exact merge_installed hz he

/-- The first setup has ended after it had read the hooks file. -/
theorem setup_recovers_sound :
    (install (str "/home/user/.codex") hookTask).value soundDisk = .ok () ∧
    ∃ y, existing (((install (str "/home/user/.codex") hookTask).run soundDisk).text .hooks) = .ok y ∧
      Preserves soundDocument y ∧
      ∀ event ∈ EVENTS, if hookTask.remove then Uninstalled event y else Installed event y := by
  have hdocument : Document soundDocument := by
    refine ⟨⟨_,rfl⟩,⟨_,rfl⟩,?_⟩
    intro event hevent entry hentry
    have hfour : event = str "SessionStart" ∨ event = str "PostToolUse" ∨
        event = str "UserPromptSubmit" ∨ event = str "Stop" := by simpa [EVENTS] using hevent
    obtain rfl | rfl | rfl | rfl := hfour
    · cases hentry
    · cases hentry
    · cases hentry
    · cases hentry
      refine ⟨_,rfl,?_⟩
      intro group hgroup
      obtain rfl := List.mem_singleton.mp hgroup
      refine ⟨_,_,rfl,rfl,?_⟩
      simp
  have hfree : Free hookTask soundDisk := by
    refine ⟨fun _ => rfl,?_,?_,by decide⟩
    · intro text hold
      rw [text_sound] at hold
      obtain rfl := Option.some.inj hold
      decide +kernel
    · intro x y hx hy
      rw [text_sound,existing_sound] at hx
      obtain rfl : soundDocument = x := Except.ok.inj hx
      have hlength : ((mergeHooks soundDocument hookTask.command hookTask.remove).map fun y =>
          decide ((documentText y).length ≤ soundDisk.room)) = some true := by decide +kernel
      rw [hy] at hlength
      exact of_decide_eq_true (Option.some.inj hlength)
  refine setup_recovers (str "/home/user/.codex") (text_sound ▸ existing_sound) hdocument writable_sound
    rfl [.start 0 hookTask,.step 0,.step 0,.crash 0] hookTask ?_ hfree
  rfl

end PeerChat.Setup
