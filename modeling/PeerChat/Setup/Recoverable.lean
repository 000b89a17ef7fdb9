import PeerChat.Setup.Install
import PeerChat.Setup.Preserved

/-! However many installations and removals run at once and wherever they end: the hooks file is never
half written, keeps what others have put there, and the first one stays recoverable. -/
namespace PeerChat.Setup
open Python Interleaving
open Python.Json (Writable writable_obj writable_arr writable_str writable_int writable_get writable_set
  writable_setDefault)

/-! What a merge writes can be read back. -/

lemma writable_items {v : Json} {xs : List Json} (h : Writable v) (hi : items v = some xs) :
    ∀ x ∈ xs, Writable x := by
  cases v with
  | arr ys =>
    cases hi
    exact writable_arr.mp h
  | str s =>
    cases hi
    intro x hx
    obtain ⟨c,hc,rfl⟩ := List.mem_map.mp hx
    exact writable_str.mpr fun d hd => List.mem_singleton.mp hd ▸ writable_str.mp h c hc
  | obj ps =>
    cases hi
    intro x hx
    obtain ⟨p,hp,rfl⟩ := List.mem_map.mp hx
    exact writable_str.mpr (writable_obj.mp h p hp).1
  | _ => cases hi

lemma writable_foreign {hs ks : List Json} (h : ∀ x ∈ hs, Writable x) (hk : foreign hs = some ks) :
    ∀ x ∈ ks, Writable x := by
  rw [foreign_eq hk]
  exact fun x hx => h x (List.mem_filter.mp hx).1

lemma writable_retained {gs ks : List Json} (h : ∀ g ∈ gs, Writable g) (hk : retained gs = some ks) :
    ∀ g ∈ ks, Writable g := by
  induction gs using retained.induct generalizing ks with
  | case1 =>
    cases hk
    simp
  | case2 fields groups ih =>
    simp only [retained,Option.bind_eq_bind,Option.bind_eq_some_iff] at hk
    obtain ⟨handlers,hitems,own,hown,rest,hrest,hk⟩ := hk
    have hfields := h _ (List.mem_cons_self ..)
    have hrest := ih (fun g hg => h g (List.mem_cons_of_mem _ hg)) hrest
    have hhandlers : Writable (((Json.obj fields).get (str "hooks")).getD (.arr [])) := by
      cases hget : (Json.obj fields).get (str "hooks") with
      | none => exact writable_arr.mpr (by simp)
      | some v => exact writable_get hfields hget
    have hown := writable_foreign (writable_items hhandlers hitems) hown
    obtain rfl := Option.some.inj hk
    split_ifs
    · exact hrest
    · intro g hg
      obtain rfl | hg := List.mem_cons.mp hg
      · exact writable_set hfields (scalar_str _) (writable_arr.mpr hown)
      · exact hrest g hg
  | case3 groups hnil hobj =>
    rw [retained.eq_3 groups hnil hobj] at hk
    cases hk

lemma writable_definition {command : Str} (h : Scalar command) (event : Str) :
    Writable (hookDefinition command event) := by
  have hbase : Writable (.obj [(str "type",.str (str "command")),(str "command",.str command),
      (str "timeout",.int 3),(str "statusMessage",.str MARKER)]) := by
    simp only [writable_obj,List.forall_mem_cons,List.not_mem_nil,writable_str,writable_int,
      scalar_str,h,MARKER,and_self,IsEmpty.forall_iff,implies_true]
  unfold hookDefinition
  refine writable_obj.mpr fun p hp => ?_
  rw [List.mem_singleton.mp hp]
  refine ⟨scalar_str _,writable_arr.mpr fun x hx => ?_⟩
  rw [List.mem_singleton.mp hx]
  split_ifs
  · exact writable_set hbase (scalar_str _) (writable_int _)
  · exact hbase

lemma writable_write {command : Str} (hc : Scalar command) (remove : Bool) {event : Str}
    (he : Scalar event) {groups : Groups} {ks : List Json} (hg : Writable (.obj groups))
    (hk : ∀ g ∈ ks, Writable g) : Writable (.obj (write command remove event groups ks)) := by
  unfold write
  dsimp only
  split_ifs
  · exact writable_obj.mpr fun p hp => writable_obj.mp hg p (List.mem_filter.mp hp).1
  · exact writable_set hg he (writable_arr.mpr hk)
  · exact writable_obj.mpr fun p hp => writable_obj.mp hg p (List.mem_filter.mp hp).1
  · refine writable_set hg he (writable_arr.mpr fun g hmem => ?_)
    obtain hmem | hmem := List.mem_append.mp hmem
    · exact hk g hmem
    · rw [List.mem_singleton.mp hmem]
      exact writable_definition hc event

lemma writable_mergeEvent {command : Str} (hc : Scalar command) {remove : Bool} {event : Str}
    (he : Scalar event) {groups groups' : Groups} (hg : Writable (.obj groups))
    (h : mergeEvent command remove groups event = some groups') : Writable (.obj groups') := by
  obtain ⟨ks,hkept,rfl⟩ := Option.map_eq_some_iff.mp h
  obtain ⟨gs,hitems,hks⟩ := Option.bind_eq_some_iff.mp hkept
  have hentry : Writable (((Json.obj groups).get event).getD (.arr [])) := by
    cases hget : (Json.obj groups).get event with
    | none => exact writable_arr.mpr (by simp)
    | some v => exact writable_get hg hget
  exact writable_write hc remove he hg (writable_retained (writable_items hentry hitems) hks)

/-- A merge writes nothing that cannot be read back. -/
lemma writable_merge {x y : Json} {command : Str} (hc : Scalar command) {remove : Bool}
    (hx : Writable x) (h : mergeHooks x command remove = some y) : Writable y := by
  obtain ⟨fields,groups,groups',rfl,hgroups,hfold,rfl⟩ := mergeHooks_eq_some h
  have hdefault : Writable (.obj (Dict.setDefault fields (str "hooks") (.obj []))) :=
    writable_setDefault hx (scalar_str _) (writable_obj.mpr (by simp))
  have hevents : ∀ e ∈ EVENTS, Scalar e := by
    simp [EVENTS]
  have hfolded : ∀ es : List Str, (∀ e ∈ es, Scalar e) → ∀ g g' : Groups, Writable (.obj g) →
      es.foldlM (mergeEvent command remove) g = some g' → Writable (.obj g') := by
    intro es
    induction es with
    | nil =>
      intro _ g g' hg hfold
      cases hfold
      exact hg
    | cons e es ih =>
      intro hes g g' hg hfold
      rw [List.foldlM_cons] at hfold
      obtain ⟨g₁,hfirst,hrest⟩ := Option.bind_eq_some_iff.mp hfold
      exact ih (fun e he => hes e (List.mem_cons_of_mem _ he)) g₁ g'
        (writable_mergeEvent hc (hes e (List.mem_cons_self ..)) hg hfirst) hrest
  exact writable_set hdefault (scalar_str _)
    (hfolded EVENTS hevents groups groups' (writable_get hdefault hgroups) hfold)

/-! What a merge writes can be merged again. -/

lemma retained_groups {gs ks : List Json} (h : retained gs = some ks) : ∀ g ∈ ks, IsGroup g := by
  induction gs using retained.induct generalizing ks with
  | case1 =>
    cases h
    simp
  | case2 fields groups ih =>
    simp only [retained,Option.bind_eq_bind,Option.bind_eq_some_iff] at h
    obtain ⟨handlers,-,own,hown,rest,hrest,h⟩ := h
    have hrest := ih hrest
    obtain rfl := Option.some.inj h
    split_ifs
    · exact hrest
    · intro g hg
      obtain rfl | hg := List.mem_cons.mp hg
      · refine ⟨_,own,rfl,?_,?_⟩
        · rw [Json.get_set,if_pos rfl]
          rfl
        · intro k hk
          rw [foreign_eq hown] at hk
          exact objects_of_foreign hown k (List.mem_filter.mp hk).1
      · exact hrest g hg
  | case3 groups hnil hobj =>
    rw [retained.eq_3 groups hnil hobj] at h
    cases h

lemma definition_group (command event : Str) : IsGroup (hookDefinition command event) := by
  unfold hookDefinition
  dsimp only
  exact ⟨_,[_],rfl,rfl,fun _ hmem => ⟨_,List.mem_singleton.mp hmem⟩⟩

lemma merge_document {x y : Json} {command : Str} {remove : Bool}
    (h : mergeHooks x command remove = some y) : Document y := by
  obtain ⟨fields,groups,groups',rfl,hgroups,hfold,rfl⟩ := mergeHooks_eq_some h
  refine ⟨⟨_,rfl⟩,⟨groups',?_⟩,?_⟩
  · rw [Json.get_set,if_pos rfl]
    rfl
  · intro event hevent e he
    obtain ⟨ks,hks,hget⟩ := (foldlM_get EVENTS_nodup hfold event).2 hevent
    obtain ⟨gs,-,hgs⟩ := Option.bind_eq_some_iff.mp hks
    have hwritten : ∀ g ∈ (if remove then ks else ks ++ [hookDefinition command event]),
        IsGroup g := by
      split_ifs
      · exact retained_groups hgs
      · intro g hg
        obtain hg | hg := List.mem_append.mp hg
        · exact retained_groups hgs g hg
        · rw [List.mem_singleton.mp hg]
          exact definition_group command event
    rw [eventEntry_merged,hget] at he
    unfold entry at he
    dsimp only at he
    generalize (if remove = true then ks else ks ++ [hookDefinition command event]) = written
      at he hwritten
    cases hempty : written.isEmpty with
    | true =>
      rw [hempty] at he
      cases he
    | false =>
      rw [hempty] at he
      exact ⟨written,(Option.some.inj he).symm,hwritten⟩

/-! What others have put there. -/

lemma Preserves.trans {x y z : Json} (h : Preserves x y) (h' : Preserves y z) : Preserves x z where
  handlers event he := (h'.handlers event he).trans (h.handlers event he)
  events event he := (h'.events event he).trans (h.events event he)
  fields field hf := (h'.fields field hf).trans (h.fields field hf)

lemma Preserves.refl (x : Json) : Preserves x x := ⟨fun _ _ => rfl,fun _ _ => rfl,fun _ _ => rfl⟩

/-- No handler of the event is the bridge's. -/
def Uninstalled (event : Str) (y : Json) : Prop :=
  ∀ group ∈ eventGroups event y, ∀ h ∈ handlers group, isOwn h = false

lemma merge_uninstalled {x y : Json} {command : Str} (h : mergeHooks x command true = some y)
    {event : Str} (hevent : event ∈ EVENTS) : Uninstalled event y := by
  obtain ⟨ks,hgroups,-,hnone⟩ := eventGroups_merged h hevent
  unfold Uninstalled
  rw [hgroups]
  exact hnone

/-- A document that setup writes where the first one was `x`: all of the bridge's hooks are there, or
none. -/
structure Written (x y : Json) : Prop where
  document : Document y
  writable : Writable y
  preserves : Preserves x y
  whole : (∀ event ∈ EVENTS, Installed event y) ∨ ∀ event ∈ EVENTS, Uninstalled event y

lemma written_merge {x y z : Json} {command : Str} (hc : Scalar command) {remove : Bool}
    (hy : Writable y) (hxy : Preserves x y) (h : mergeHooks y command remove = some z) :
    Written x z where
  document := merge_document h
  writable := writable_merge hc hy h
  preserves := hxy.trans (merge_preserves h)
  whole := by
    cases remove with
    | true => exact Or.inr fun event he => merge_uninstalled h he
    | false => exact Or.inl fun event he => merge_installed h he

/-! The files. -/

section
variable (original : Option Str) (x : Json)

/-- The first hooks file is the one that is kept. -/
def Saved (d : Disk) : Prop := ∀ o, original = some o → d.text .backup = some o

/-- The text of the first hooks file, or one that setup has written. -/
def Genuine (old : Option Str) : Prop :=
  old = original ∨ ∃ y, old = some (documentText y) ∧ Written x y

/-- The hooks file is the first one, or it has been written as a whole and the first one is saved. -/
structure Recoverable (d : Disk) : Prop where
  genuine : Genuine original x (d.text .hooks)
  saved : d.text .hooks ≠ original → Saved original d
  backup : ∀ o, original = some o → d.text .backup = none ∨ d.text .backup = some o

/-- What a setup does to the two files. -/
def Keeps (d : Disk) : DiskOp → Prop
  | .replace .hooks text => Saved original d ∧ Genuine original x (some text)
  | .replace .backup text => ∀ o, original = some o → text = o
  | _ => True

variable {original x}

/-- The other files stay as they are. -/
lemma text_replace {d : Disk} {place place' : Place} {text : Str} (h : place' ≠ place) :
    (apply (DiskOp.replace place text) d).text place' = d.text place' :=
  Function.update_of_ne h ..

lemma text_replaced (d : Disk) (place : Place) (text : Str) :
    (apply (DiskOp.replace place text) d).text place = some text := Function.update_self ..

lemma saved_kept {d : Disk} {l : DiskOp} (hl : Keeps original x d l) (hd : Saved original d) :
    Saved original (apply l d) := by
  cases l with
  | replace place text =>
    intro o ho
    by_cases hplace : .backup = place
    · subst hplace
      rw [text_replaced,hl o ho]
    · rw [text_replace hplace,hd o ho]
  | _ => exact hd

lemma Recoverable.keeps {d : Disk} {l : DiskOp} (h : Recoverable original x d)
    (hl : Keeps original x d l) : Recoverable original x (apply l d) := by
  cases l with
  | replace place text =>
    cases place with
    | hooks =>
      have hsaved := saved_kept hl hl.1
      refine ⟨?_,fun _ => hsaved,fun o ho => Or.inr (hsaved o ho)⟩
      rw [text_replaced]
      exact hl.2
    | backup =>
      have hsaved : Saved original (apply (DiskOp.replace .backup text) d) := by
        intro o ho
        rw [text_replaced,hl o ho]
      refine ⟨?_,fun _ => hsaved,fun o ho => Or.inr (hsaved o ho)⟩
      rw [text_replace (by intro h; cases h)]
      exact h.genuine
    | skill home =>
      have hhooks : (apply (DiskOp.replace (.skill home) text) d).text .hooks = d.text .hooks :=
        text_replace (by intro h; cases h)
      refine ⟨?_,?_,?_⟩
      · rw [hhooks]
        exact h.genuine
      · rw [hhooks]
        exact fun hne => saved_kept hl (h.saved hne)
      · rw [text_replace (by intro h; cases h)]
        exact h.backup
  | _ => exact ⟨h.genuine,h.saved,h.backup⟩

/-! The programs. -/

/-- What a setup may rely on, it keeps itself. -/
abbrev Setups {α : Type} (original : Option Str) (x : Json) (P : Disk → Prop) (p : DiskCode α)
    (Q : α → Disk → Prop) : Prop :=
  Sat (Recoverable original x) (Keeps original x) (Keeps original x) P p Q

lemma stable_true : Stable (Recoverable original x) (Keeps original x) fun _ => True :=
  fun _ _ _ _ _ => trivial

lemma stable_saved : Stable (Recoverable original x) (Keeps original x) (Saved original) :=
  fun _ _ _ hl hd => saved_kept hl hd

/-- What is known after a file has been read: it is the first one, or the first one is saved. -/
lemma stable_known (old : Option Str) :
    Stable (Recoverable original x) (Keeps original x) fun d => old ≠ original → Saved original d :=
  fun _ _ _ hl hd hne => saved_kept hl (hd hne)

lemma andThen_sat {α β : Type} {P : Disk → Prop} {p : DiskCode (Except InstallError α)}
    {q : α → DiskCode (Except InstallError β)} {Q : Except InstallError α → Disk → Prop}
    (hp : Setups original x P p Q)
    (hq : ∀ a, Setups original x (Q (.ok a)) (q a) fun _ _ => True) :
    Setups original x P (andThen p q) fun _ _ => True := by
  refine hp.bind fun r => ?_
  cases r with
  | error exc => exact fun _ _ => trivial
  | ok a => exact hq a

lemma atomicWrite_sat {codexHome : Str} {place : Place} {text : Str} {P : Disk → Prop}
    {Q : Except InstallError Unit → Disk → Prop}
    (hP : Stable (Recoverable original x) (Keeps original x) P)
    (hQ : Stable (Recoverable original x) (Keeps original x) (Q (.ok ())))
    (hkeeps : ∀ d, P d → Keeps original x d (.replace place text))
    (hok : ∀ d, P d → Q (.ok ()) (apply (DiskOp.replace place text) d))
    (herror : ∀ exc d, Q (.error exc) d) :
    Setups original x P (atomicWrite codexHome place text) Q := by
  intro d _ hd
  refine ⟨trivial,P,hP,hd,?_⟩
  simp only [Prog.bind]
  split_ifs
  · exact fun d _ => herror _ d
  intro d _ hd
  refine ⟨trivial,P,hP,hd,?_⟩
  simp only [Prog.bind]
  split_ifs
  · intro d _ hd
    exact ⟨hkeeps d hd,Q (.ok ()),hQ,hok d hd,fun _ h => h⟩
  · exact fun d _ => herror _ d

lemma keepOriginal_sat (codexHome : Str) (old : Option Str) :
    Setups original x (fun d => old ≠ original → Saved original d) (keepOriginal codexHome old)
      fun r d => r = .ok () → Saved original d := by
  cases old with
  | none =>
    intro d hd _ o ho
    exact hd (by simp [ho]) o ho
  | some old =>
    intro d hI hd
    cases hkept : d.text .backup with
    | some b =>
      refine ⟨trivial,Saved original,stable_saved,?_,?_⟩
      · intro o ho
        obtain h | h := hI.backup o ho
        · rw [hkept] at h
          cases h
        · exact h
      · simp only [Prog.bind,hkept]
        exact fun _ h _ => h
    | none =>
      -- nothing is saved yet, so what has been read is the first file
      have hfirst : ∀ o, original = some o → old = o := by
        intro o ho
        by_contra hne
        have hsaved := hd (by rw [ho]; exact fun h => hne (Option.some.inj h)) o ho
        rw [hkept] at hsaved
        cases hsaved
      refine ⟨trivial,fun _ => True,stable_true,trivial,?_⟩
      simp only [Prog.bind,hkept]
      refine atomicWrite_sat stable_true (fun d l hI hl hd _ => saved_kept hl (hd rfl))
        (fun _ _ => hfirst) ?_ (fun _ _ h => by cases h)
      intro d _ _ o ho
      rw [text_replaced,hfirst o ho]

lemma existing_document {y : Json} (h : Written x y) :
    existing (some (documentText y)) = .ok y := by
  obtain ⟨fields,rfl⟩ := h.document.object
  rw [existing,documentText,Json.loadsStr_dumpsIndent h.writable]

/-- The document of a genuine text keeps what others have put into the first one. -/
lemma existing_genuine {old : Option Str} (hx : existing original = .ok x)
    (hold : Genuine original x old) :
    ∃ y, existing old = .ok y ∧ Preserves x y ∧ (Writable x → Writable y) ∧
      (Document x → Document y) := by
  obtain rfl | ⟨y,rfl,hy⟩ := hold
  · exact ⟨x,hx,Preserves.refl x,id,id⟩
  · exact ⟨y,existing_document hy,hy.preserves,fun _ => hy.writable,fun _ => hy.document⟩

lemma installHooks_sat (codexHome : Str) (hx : existing original = .ok x) (hw : Writable x)
    {command : Str} (hc : Scalar command) (remove : Bool) {old : Option Str}
    (hold : Genuine original x old) :
    Setups original x (fun d => old ≠ original → Saved original d)
      (installHooks codexHome command remove old) fun _ _ => True := by
  obtain ⟨y,hy,hpreserves,hwritable,-⟩ := existing_genuine hx hold
  unfold installHooks
  simp only [hy]
  cases hmerge : mergeHooks y command remove with
  | none => exact fun _ _ => trivial
  | some z =>
    have hz : Written x z := written_merge hc (hwritable hw) hpreserves hmerge
    dsimp only
    split_ifs
    · exact fun _ _ => trivial
    refine andThen_sat (keepOriginal_sat codexHome old) fun _ => ?_
    refine (atomicWrite_sat stable_saved stable_true ?_ (fun _ _ => trivial)
      fun _ _ => trivial).mono fun d h => h rfl
    exact fun d hd => ⟨hd,Or.inr ⟨z,rfl,hz⟩⟩

lemma installSkills_sat (codexHome skill : Str) (homes : List Str) :
    Setups original x (fun _ => True) (installSkills codexHome skill homes) fun _ _ => True := by
  induction homes with
  | nil => exact fun _ _ => trivial
  | cons home homes ih =>
    have hput : Setups original x (fun _ => True) (atomicWrite codexHome (.skill home) skill)
        fun _ _ => True :=
      atomicWrite_sat stable_true stable_true (fun _ _ => trivial) (fun _ _ => trivial)
        fun _ _ => trivial
    have hwrite := andThen_sat hput fun _ => ih
    intro d _ _
    refine ⟨trivial,fun _ => True,stable_true,trivial,?_⟩
    cases hlinked : d.skillLinked home with
    | true =>
      simp only [Prog.bind,hlinked]
      exact fun d _ _ => ⟨trivial,fun _ => True,stable_true,trivial,hwrite⟩
    | false =>
      simp only [Prog.bind,hlinked]
      exact hwrite

/-- What has been read is genuine, and unless it is the first file, that one is saved by then. -/
lemma readHooks_sat :
    Setups original x (fun _ => True) readHooks fun r d => ∀ old, r = .ok old →
      Genuine original x old ∧ (old ≠ original → Saved original d) := by
  have hstable : ∀ old, Stable (Recoverable original x) (Keeps original x) fun d =>
      Genuine original x old ∧ (old ≠ original → Saved original d) :=
    fun old d l hI hl hd => ⟨hd.1,stable_known old d l hI hl hd.2⟩
  intro d hI _
  cases hpresent : d.text .hooks with
  | none =>
    refine ⟨trivial,_,hstable none,⟨?_,fun hne => hI.saved (by rwa [hpresent])⟩,?_⟩
    · exact hpresent ▸ hI.genuine
    · simp only [Prog.bind,hpresent]
      intro d hd old hold
      cases hold
      exact hd
  | some _ =>
    refine ⟨trivial,fun _ => True,stable_true,trivial,?_⟩
    simp only [Prog.bind,hpresent]
    intro d hI _
    cases hread : d.text .hooks with
    | none =>
      refine ⟨trivial,fun _ => True,stable_true,trivial,?_⟩
      simp only [Prog.bind,hread]
      intro d _ old hold
      cases hold
    | some text =>
      refine ⟨trivial,_,hstable (some text),⟨?_,fun hne => hI.saved (by rwa [hread])⟩,?_⟩
      · exact hread ▸ hI.genuine
      · simp only [Prog.bind,hread]
        intro d hd old hold
        cases hold
        exact hd

lemma install_sat (codexHome : Str) (hx : existing original = .ok x) (hw : Writable x)
    (task : InstallTask) :
    Setups original x (fun _ => True) (install codexHome task) fun _ _ => True := by
  refine andThen_sat readHooks_sat fun old => ?_
  have hhooks : Setups original x
      (fun d => Genuine original x old ∧ (old ≠ original → Saved original d))
      (installHooks codexHome task.command task.remove old) fun _ _ => True :=
    Sat.of_fact fun hold => installHooks_sat codexHome hx hw task.scalar task.remove hold
  refine andThen_sat (hhooks.mono fun d hd => hd old rfl) fun _ => ?_
  split_ifs
  · exact fun _ _ => trivial
  · exact installSkills_sat ..

/-- Every setup does no more than the others rely on. -/
lemma installer_sound (codexHome : Str) (hx : existing original = .ok x) (hw : Writable x) :
    (installer codexHome).Sound (Recoverable original x) (fun _ => Keeps original x)
      fun _ => Keeps original x where
  start task _ _ _ := ⟨fun _ => True,stable_true,trivial,
    (install_sat codexHome hx hw task).bind fun _ _ _ => trivial⟩
  compat _ _ _ _ _ _ hl := hl
  outside _ _ l _ hl := by
    cases l with
    | outside linked skillLinked room => trivial
    | _ => cases hl
  invariant _ _ _ hI hl := hI.keeps hl
  invariant_outside _ l hI hl := hI.keeps (by
    cases l with
    | outside linked skillLinked room => trivial
    | _ => cases hl)

end

lemma recoverable_final (codexHome : Str) {d : Disk} {x : Json}
    (hx : existing (d.text .hooks) = .ok x) (hw : Writable x) (hbackup : d.text .backup = none)
    (es : List (Event InstallTask DiskOp)) :
    Recoverable (d.text .hooks) x ((installer codexHome).final (Pool.idle d) es).state := by
  have hfirst : Recoverable (d.text .hooks) x d :=
    ⟨Or.inl rfl,fun hne => absurd rfl hne,fun _ _ => Or.inl hbackup⟩
  exact ((installer_sound codexHome hx hw).trace_fair es (Pool.idle_safe hfirst)).1.1

/-- Whatever setups run at once and wherever they end, the hooks file can be read as a document that
keeps what others had put there; once it is not the first one any more, it is one that a merge gave,
and the first one is in the backup. The commands have no lone surrogates, and the first document is one
that `json.loads` reads: a merge nests no deeper than the hooks of the bridge, and adds no long integer. -/
theorem installs_recoverable (codexHome : Str) {d : Disk} {x : Json}
    (hx : existing (d.text .hooks) = .ok x) (hw : Writable x) (hbackup : d.text .backup = none)
    (es : List (Event InstallTask DiskOp)) :
    Recoverable (d.text .hooks) x ((installer codexHome).final (Pool.idle d) es).state ∧
    ∃ y, existing (((installer codexHome).final (Pool.idle d) es).state.text .hooks) = .ok y ∧
      Preserves x y := by
  have hlast := recoverable_final codexHome hx hw hbackup es
  obtain ⟨y,hy,hpreserves,-,-⟩ := existing_genuine hx hlast.genuine
  exact ⟨hlast,y,hy,hpreserves⟩

/-- A hook of someone else's. -/
def soundDocument : Json := .obj [(str "hooks",.obj [(str "Stop",.arr [.obj [(str "hooks",
  .arr [.obj [(str "type",.str (str "command")),(str "command",.str (str "play-sound"))]])]])])]

lemma writable_sound : Writable soundDocument := by
  simp only [soundDocument,writable_obj,writable_arr,writable_str,List.forall_mem_cons,
    List.not_mem_nil,scalar_str,IsEmpty.forall_iff,implies_true,and_self]

lemma existing_sound : existing (some (documentText soundDocument)) = .ok soundDocument := by
  rw [existing,documentText,Json.loadsStr_dumpsIndent writable_sound]
  rfl

def soundDisk : Disk where
  text place := if place = .hooks then some (documentText soundDocument) else none
  linked _ := false
  skillLinked _ := false
  room := 10000

lemma text_sound : soundDisk.text .hooks = some (documentText soundDocument) := by
  simp [soundDisk]

def hookTask : InstallTask where
  command := str "peer-chat-hook"
  remove := false
  claudeHomes := [str "/home/user/.claude"]
  skill := str "Peer Chat"
  scalar := scalar_str _

/-- One setup ends between the two files, another one goes on. -/
def soundSchedule : List (Event InstallTask DiskOp) :=
  .start 0 hookTask :: List.replicate 7 (.step 0) ++ [.start 1 hookTask,.crash 0] ++
    List.replicate 6 (.step 1)

theorem installs_recoverable_sound :
    Recoverable (soundDisk.text .hooks) soundDocument
      ((installer (str "/home/user/.codex")).final (Pool.idle soundDisk) soundSchedule).state ∧
    ∃ y, existing (((installer (str "/home/user/.codex")).final
        (Pool.idle soundDisk) soundSchedule).state.text .hooks) = .ok y ∧
      Preserves soundDocument y := by
  exact installs_recoverable _ (text_sound ▸ existing_sound) writable_sound rfl _

end PeerChat.Setup
