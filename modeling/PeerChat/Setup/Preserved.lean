import PeerChat.Setup.MergeHooks

/-! What a merge of the bridge's hooks leaves to others, and what it puts there itself. -/
namespace PeerChat.Setup
open Python

/-- The list in an entry. -/
def list : Option Json → List Json
  | some (.arr items) => items
  | _ => []

def handlers (group : Json) : List Json := list (group.get (str "hooks"))

/-- The bridge's marker is on the handler. -/
def isOwn (handler : Json) : Bool := marked handler = some true

def otherFields : Json → List (Str × Json)
  | .obj fields => Dict.pop fields (str "hooks")
  | _ => []

/-- The handlers of others in a group. -/
def theirs (group : Json) : List Json := (handlers group).filter fun h => !isOwn h

/-- What others have in a list of groups: where a group has handlers of theirs, these in their
order, with the other fields of the group. -/
def others (groups : List Json) : List (List (Str × Json) × List Json) :=
  groups.filterMap fun group =>
    if (theirs group).isEmpty then none else some (otherFields group,theirs group)

/-- `document["hooks"][event]`. -/
def eventEntry (event : Str) (document : Json) : Option Json :=
  (document.get (str "hooks")).bind (·.get event)

def eventGroups (event : Str) (document : Json) : List Json := list (eventEntry event document)

/-- Nothing of others has changed. -/
structure Preserves (x y : Json) : Prop where
  handlers : ∀ event ∈ EVENTS, others (eventGroups event y) = others (eventGroups event x)
  events : ∀ event, event ∉ EVENTS → eventEntry event y = eventEntry event x
  fields : ∀ field, field ≠ str "hooks" → y.get field = x.get field

/-- One handler of the event is the bridge's, alone in the last group. -/
def Installed (event : Str) (y : Json) : Prop := ∃ groups last handler,
  eventGroups event y = groups ++ [last] ∧ handlers last = [handler] ∧ isOwn handler = true ∧
  ∀ group ∈ groups, ∀ h ∈ Setup.handlers group, isOwn h = false

/-- A group with a list of handlers; a group without one has none. -/
def IsGroup (group : Json) : Prop := ∃ fields hs, group = .obj fields ∧
  (group.get (str "hooks")).getD (.arr []) = .arr hs ∧ ∀ h ∈ hs, ∃ fields, h = .obj fields

/-- A hooks document whose event entries are lists of groups with lists of handlers. -/
structure Document (x : Json) : Prop where
  object : ∃ fields, x = .obj fields
  hooks : ∃ groups, (x.get (str "hooks")).getD (.obj []) = .obj groups
  groups : ∀ event ∈ EVENTS, ∀ entry, eventEntry event x = some entry →
    ∃ gs, entry = .arr gs ∧ ∀ group ∈ gs, IsGroup group

lemma others_cons (group : Json) (groups : List Json) : others (group::groups) =
    if (theirs group).isEmpty then others groups
    else (otherFields group,theirs group) :: others groups := by
  unfold others
  rw [List.filterMap_cons]
  cases (theirs group).isEmpty <;> rfl

/-! The filter. -/

lemma foreign_eq {hs ks : List Json} (h : foreign hs = some ks) :
    ks = hs.filter fun h => !isOwn h := by
  induction hs generalizing ks with
  | nil =>
    cases h
    rfl
  | cons g hs ih =>
    simp only [foreign,Option.bind_eq_bind,Option.bind_eq_some_iff] at h
    obtain ⟨own,hown,rest,hrest,h⟩ := h
    have hrest' := ih hrest
    cases own with
    | true =>
      obtain rfl := Option.some.inj h
      rw [List.filter_cons_of_neg (by simp [isOwn,hown])]
      exact hrest'
    | false =>
      obtain rfl := Option.some.inj h
      rw [List.filter_cons_of_pos (by simp [isOwn,hown]),← hrest']
      rfl

/-- A loop that meets objects only, or nothing, is over a list, or over nothing. -/
lemma items_eq {v : Option Json} {hs : List Json} (hitems : items (v.getD (.arr [])) = some hs)
    (hobj : ∀ h ∈ hs, ∃ fields, h = .obj fields) : hs = list v := by
  cases v with
  | none =>
    cases hitems
    rfl
  | some v =>
    cases v with
    | arr gs =>
      cases hitems
      rfl
    | str s =>
      cases hitems
      cases s with
      | nil => rfl
      | cons c s =>
        obtain ⟨fields,h⟩ := hobj _ (List.mem_cons_self ..)
        cases h
    | obj pairs =>
      cases hitems
      cases pairs with
      | nil => rfl
      | cons p pairs =>
        obtain ⟨fields,h⟩ := hobj _ (List.mem_cons_self ..)
        cases h
    | _ => cases hitems

lemma objects_of_foreign {hs ks : List Json} (h : foreign hs = some ks) :
    ∀ h ∈ hs, ∃ fields, h = .obj fields := by
  induction hs generalizing ks with
  | nil => exact fun h hmem => absurd hmem List.not_mem_nil
  | cons g hs ih =>
    simp only [foreign,Option.bind_eq_bind,Option.bind_eq_some_iff] at h
    obtain ⟨own,hown,rest,hrest,-⟩ := h
    intro h hmem
    obtain rfl | hmem := List.mem_cons.mp hmem
    · cases h with
      | obj fields => exact ⟨fields,rfl⟩
      | _ => cases hown
    · exact ih hrest h hmem

lemma objects_of_retained {gs ks : List Json} (h : retained gs = some ks) :
    ∀ g ∈ gs, ∃ fields, g = .obj fields := by
  induction gs using retained.induct generalizing ks with
  | case1 => exact fun g hmem => absurd hmem List.not_mem_nil
  | case2 fields groups ih =>
    simp only [retained,Option.bind_eq_bind,Option.bind_eq_some_iff] at h
    obtain ⟨-,-,-,-,rest,hrest,-⟩ := h
    intro g hmem
    obtain rfl | hmem := List.mem_cons.mp hmem
    · exact ⟨fields,rfl⟩
    · exact ih hrest g hmem
  | case3 groups hnil hobj =>
    rw [retained.eq_3 groups hnil hobj] at h
    cases h

/-- The retained groups hold what others have, and nothing of the bridge. -/
lemma retained_others {gs ks : List Json} (h : retained gs = some ks) :
    others ks = others gs ∧ ∀ group ∈ ks, ∀ h ∈ handlers group, isOwn h = false := by
  induction gs using retained.induct generalizing ks with
  | case1 =>
    cases h
    exact ⟨rfl,fun g hmem => absurd hmem List.not_mem_nil⟩
  | case2 fields groups ih =>
    simp only [retained,Option.bind_eq_bind,Option.bind_eq_some_iff] at h
    obtain ⟨hs,hitems,own,hown,rest,hrest,h⟩ := h
    obtain ⟨hothers,hnone⟩ := ih hrest
    have hlist : hs = handlers (.obj fields) := items_eq hitems (objects_of_foreign hown)
    have htheirs : own = theirs (.obj fields) := by
      rw [foreign_eq hown,hlist]
      rfl
    rw [others_cons,← htheirs]
    cases hempty : own.isEmpty with
    | true =>
      rw [hempty] at h
      obtain rfl : rest = ks := Option.some.inj h
      exact ⟨hothers,hnone⟩
    | false =>
      rw [hempty] at h
      obtain rfl : Json.obj (Dict.set fields (str "hooks") (.arr own)) :: rest = ks :=
        Option.some.inj h
      have hhandlers : handlers (.obj (Dict.set fields (str "hooks") (.arr own))) = own := by
        rw [handlers,Json.get_set,if_pos rfl]
        rfl
      have hown' : ∀ h ∈ own, isOwn h = false := by
        intro h hmem
        rw [htheirs] at hmem
        simpa using (List.mem_filter.mp hmem).2
      have hsame : theirs (.obj (Dict.set fields (str "hooks") (.arr own))) = own := by
        rw [theirs,hhandlers]
        exact List.filter_eq_self.mpr fun h hmem => by simp [hown' h hmem]
      have hfields : otherFields (.obj (Dict.set fields (str "hooks") (.arr own))) =
          otherFields (.obj fields) := Dict.pop_set fields (str "hooks") _
      constructor
      · rw [others_cons,hsame,hempty,hfields,hothers]
      · intro group hmem h hh
        obtain rfl | hmem := List.mem_cons.mp hmem
        · rw [hhandlers] at hh
          exact hown' h hh
        · exact hnone group hmem h hh
  | case3 groups hnil hobj =>
    rw [retained.eq_3 groups hnil hobj] at h
    cases h

lemma others_append (gs hs : List Json) : others (gs ++ hs) = others gs ++ others hs :=
  List.filterMap_append

/-- The one handler that the bridge installs. -/
lemma hookDefinition_own (command event : Str) : ∃ handler,
    handlers (hookDefinition command event) = [handler] ∧ isOwn handler = true := by
  obtain ⟨handler,heq,hmarked⟩ := hookDefinition_eq command event
  refine ⟨handler,?_,?_⟩
  · rw [heq]
    simp [handlers,Json.get_obj,list]
  · simp [isOwn,hmarked]

lemma others_definition (command event : Str) : others [hookDefinition command event] = [] :=
  (retained_others (retained_definition command event)).1.symm

/-! The document. -/

/-- The groups of an event after a merge. -/
lemma list_entry (command : Str) (remove : Bool) (event : Str) (ks : List Json) :
    list (entry command remove event ks) =
      if remove then ks else ks ++ [hookDefinition command event] := by
  unfold entry
  dsimp only
  generalize (if remove = true then ks else ks ++ [hookDefinition command event]) = written
  cases hempty : written.isEmpty with
  | true =>
    rw [List.isEmpty_iff.mp hempty]
    rfl
  | false => rfl

/-- An object that is missing has no entries. -/
lemma eventEntry_default {fields groups : List (Str × Json)}
    (h : (Json.obj (Dict.setDefault fields (str "hooks") (.obj []))).get (str "hooks") =
      some (.obj groups)) (event : Str) :
    eventEntry event (.obj fields) = (Json.obj groups).get event := by
  rw [Json.get_setDefault] at h
  unfold eventEntry
  by_cases hkey : str "hooks" ∈ Dict.keys fields
  · rw [if_neg fun hboth => hboth.2 hkey] at h
    rw [h]
    rfl
  · rw [if_pos ⟨rfl,hkey⟩] at h
    cases h
    rw [Json.get_eq_none_iff.mpr hkey]
    rfl

lemma eventEntry_merged (fields groups : List (Str × Json)) (event : Str) :
    eventEntry event (.obj (Dict.set fields (str "hooks") (.obj groups))) =
      (Json.obj groups).get event := by
  unfold eventEntry
  rw [Json.get_set,if_pos rfl]
  rfl

/-- One of the four events after a merge. -/
lemma eventGroups_merged {x y : Json} {command : Str} {remove : Bool}
    (h : mergeHooks x command remove = some y) {event : Str} (hevent : event ∈ EVENTS) :
    ∃ ks, eventGroups event y = (if remove then ks else ks ++ [hookDefinition command event]) ∧
      others ks = others (eventGroups event x) ∧
      ∀ group ∈ ks, ∀ h ∈ handlers group, isOwn h = false := by
  obtain ⟨fields,groups,groups',rfl,hgroups,hfold,rfl⟩ := mergeHooks_eq_some h
  obtain ⟨ks,hks,hget⟩ := (foldlM_get EVENTS_nodup hfold event).2 hevent
  obtain ⟨gs,hitems,hgs⟩ := Option.bind_eq_some_iff.mp hks
  have hlist := items_eq hitems (objects_of_retained hgs)
  obtain ⟨hothers,hnone⟩ := retained_others hgs
  refine ⟨ks,?_,?_,hnone⟩
  · rw [eventGroups,eventEntry_merged,hget,list_entry]
  · rw [eventGroups,eventEntry_default hgroups,hothers,hlist]

theorem merge_preserves {x y : Json} {command : Str} {remove : Bool}
    (h : mergeHooks x command remove = some y) : Preserves x y := by
  constructor
  · intro event hevent
    obtain ⟨ks,hgroups,hothers,-⟩ := eventGroups_merged h hevent
    rw [hgroups,← hothers]
    split_ifs
    · rfl
    · rw [others_append,others_definition,List.append_nil]
  · intro event hevent
    obtain ⟨fields,groups,groups',rfl,hgroups,hfold,rfl⟩ := mergeHooks_eq_some h
    rw [eventEntry_merged,eventEntry_default hgroups]
    exact (foldlM_get EVENTS_nodup hfold event).1 hevent
  · intro field hfield
    obtain ⟨fields,groups,groups',rfl,-,-,rfl⟩ := mergeHooks_eq_some h
    rw [Json.get_set,if_neg hfield,Json.get_setDefault,if_neg fun hboth => hfield hboth.1]

theorem merge_installed {x y : Json} {command : Str} (h : mergeHooks x command = some y)
    {event : Str} (hevent : event ∈ EVENTS) : Installed event y := by
  obtain ⟨ks,hgroups,-,hnone⟩ := eventGroups_merged h hevent
  obtain ⟨handler,hone,hown⟩ := hookDefinition_own command event
  exact ⟨ks,_,handler,hgroups,hone,hown,hnone⟩

/-! Every document can be merged. -/

lemma foreign_isSome {hs : List Json} (h : ∀ h ∈ hs, ∃ fields, h = .obj fields) :
    ∃ ks, foreign hs = some ks := by
  induction hs with
  | nil => exact ⟨[],rfl⟩
  | cons g hs ih =>
    obtain ⟨fields,rfl⟩ := h g (List.mem_cons_self ..)
    obtain ⟨ks,hks⟩ := ih fun h' hmem => h h' (List.mem_cons_of_mem _ hmem)
    exact ⟨_,by simp only [foreign,marked,hks]; rfl⟩

lemma retained_isSome {gs : List Json} (h : ∀ group ∈ gs, IsGroup group) :
    ∃ ks, retained gs = some ks := by
  induction gs with
  | nil => exact ⟨[],rfl⟩
  | cons g gs ih =>
    obtain ⟨fields,hs,rfl,hhs,hobj⟩ := h g (List.mem_cons_self ..)
    obtain ⟨rest,hrest⟩ := ih fun g' hmem => h g' (List.mem_cons_of_mem _ hmem)
    obtain ⟨own,hown⟩ := foreign_isSome hobj
    refine ⟨if own.isEmpty then rest
      else .obj (Dict.set fields (str "hooks") (.arr own)) :: rest,?_⟩
    simp only [retained,hhs,items,hown,hrest,Option.bind_eq_bind,Option.bind_some]

lemma foldlM_isSome {es : List Str} (hnodup : es.Nodup) {groups : Groups}
    (h : ∀ event ∈ es, ∃ ks, kept event groups = some ks) (command : Str) (remove : Bool) :
    ∃ groups', es.foldlM (mergeEvent command remove) groups = some groups' := by
  induction es generalizing groups with
  | nil => exact ⟨groups,rfl⟩
  | cons e es ih =>
    obtain ⟨hnot,hnodup⟩ := List.nodup_cons.mp hnodup
    obtain ⟨ks,hks⟩ := h e (List.mem_cons_self ..)
    have hrest : ∀ event ∈ es, ∃ js,
        kept event (write command remove e groups ks) = some js := by
      intro event hmem
      obtain ⟨js,hjs⟩ := h event (List.mem_cons_of_mem _ hmem)
      have hne : event ≠ e := by
        rintro rfl
        exact hnot hmem
      exact ⟨js,(kept_write_ne hne command remove groups ks).trans hjs⟩
    obtain ⟨groups',hgroups'⟩ := ih hnodup hrest
    refine ⟨groups',?_⟩
    rw [List.foldlM_cons,mergeEvent,hks]
    exact hgroups'

theorem mergeHooks_isSome {x : Json} (h : Document x) (command : Str) (remove : Bool) :
    ∃ y, mergeHooks x command remove = some y := by
  obtain ⟨fields,rfl⟩ := h.object
  obtain ⟨groups,hhooks⟩ := h.hooks
  have hget : (Json.obj (Dict.setDefault fields (str "hooks") (.obj []))).get (str "hooks") =
      some (.obj groups) := by
    rw [Json.get_setDefault]
    by_cases hkey : str "hooks" ∈ Dict.keys fields
    · rw [if_neg fun hboth => hboth.2 hkey]
      cases hg : (Json.obj fields).get (str "hooks") with
      | none => exact absurd hkey (Json.get_eq_none_iff.mp hg)
      | some v =>
        rw [hg] at hhooks
        exact congrArg some hhooks
    · rw [if_pos ⟨rfl,hkey⟩]
      rw [Json.get_eq_none_iff.mpr hkey] at hhooks
      exact congrArg some hhooks
  have hkept : ∀ event ∈ EVENTS, ∃ ks, kept event groups = some ks := by
    intro event hevent
    have hentry := h.groups event hevent
    rw [eventEntry_default hget] at hentry
    unfold kept
    cases he : (Json.obj groups).get event with
    | none => exact ⟨[],rfl⟩
    | some entry =>
      obtain ⟨gs,rfl,hgs⟩ := hentry entry he
      exact retained_isSome hgs
  obtain ⟨groups',hfold⟩ := foldlM_isSome EVENTS_nodup hkept command remove
  exact ⟨_,by simp only [mergeHooks,hget,hfold]; rfl⟩

/-- Installing hooks is idempotent, removing them undoes it, and neither touches what others have:
their handlers at the four events, the other events and the other fields of the document. -/
theorem merge_hooks_laws {x : Json} (hx : Document x) (c d : Str) : ∃ installed removed,
    mergeHooks x c = some installed ∧
    mergeHooks installed d = mergeHooks x d ∧
    mergeHooks x d true = some removed ∧
    mergeHooks installed d true = some removed ∧
    Preserves x installed ∧ Preserves x removed ∧
    ∀ event ∈ EVENTS, Installed event installed := by
  obtain ⟨installed,hinstalled⟩ := mergeHooks_isSome hx c false
  obtain ⟨removed,hremoved⟩ := mergeHooks_isSome hx d true
  refine ⟨installed,removed,hinstalled,mergeHooks_absorb hinstalled d false,hremoved,?_,
    merge_preserves hinstalled,merge_preserves hremoved,fun _ => merge_installed hinstalled⟩
  rw [mergeHooks_absorb hinstalled d true]
  exact hremoved

/-- A document with one handler of another tool, two stale ones, and an event that is not merged. -/
def sampleDocument : Json :=
  let foreign := .obj [(str "type",.str (str "command"))]
  let stale := .obj [(str "statusMessage",.str MARKER)]
  .obj [(str "description",.str (str "checks")),(str "hooks",.obj [
    (str "PostToolUse",.arr [
      .obj [(str "matcher",.str (str "Bash")),(str "hooks",.arr [stale,foreign])],
      .obj [(str "hooks",.arr [stale])]]),
    (str "PreToolUse",.arr [.obj []])])]

theorem merge_hooks_laws_sample : ∃ installed, mergeHooks sampleDocument (str "hook") = some installed ∧
    Preserves sampleDocument installed ∧ ∀ event ∈ EVENTS, Installed event installed := by
  have hdocument : Document sampleDocument := by
    refine ⟨⟨_,rfl⟩,⟨_,rfl⟩,?_⟩
    intro event hevent entry hentry
    have hfour : event = str "SessionStart" ∨ event = str "PostToolUse" ∨
        event = str "UserPromptSubmit" ∨ event = str "Stop" := by simpa [EVENTS] using hevent
    obtain rfl | rfl | rfl | rfl := hfour
    · cases hentry
    · cases hentry
      refine ⟨_,rfl,?_⟩
      intro group hgroup
      obtain rfl | hgroup := List.mem_cons.mp hgroup
      · refine ⟨_,_,rfl,rfl,?_⟩
        simp
      · obtain rfl := List.mem_singleton.mp hgroup
        refine ⟨_,_,rfl,rfl,?_⟩
        simp
    · cases hentry
    · cases hentry
  obtain ⟨installed,-,h,-,-,-,hpreserves,-,hinstalled⟩ := merge_hooks_laws hdocument (str "hook") []
  exact ⟨installed,h,hpreserves,hinstalled⟩

end PeerChat.Setup
