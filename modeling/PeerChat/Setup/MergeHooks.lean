import PeerChat.Python.JsonObject

/-! The merge of the bridge's hook entries into a hooks document. Installing again is installing
once, removing undoes installing, and what others have put there stays as it was. -/
namespace PeerChat.Setup
open Python

def EVENTS : List Str :=
  [str "SessionStart",str "PostToolUse",str "UserPromptSubmit",str "Stop"]

def MARKER : Str := str "peer-chat: deliver invited peer messages"

def hookDefinition (command event : Str) : Json :=
  let handler := [(str "type",.str (str "command")),(str "command",.str command),
    (str "timeout",.int 3),(str "statusMessage",.str MARKER)]
  let handler := if event = str "PostToolUse" ∨ event = str "UserPromptSubmit" then
    Dict.set handler (str "additionalContextLimit") (.int 5000) else handler
  .obj [(str "hooks",.arr [.obj handler])]

/-- What a `for` loop over a value goes through; none where it raises. -/
def items : Json → Option (List Json)
  | .arr items => some items
  | .str s => some (s.map fun c => .str [c])
  | .obj pairs => some (pairs.map fun p => .str p.1)
  | _ => none

/-- `h.get("statusMessage") == MARKER`; none where the handler is no object. -/
def marked : Json → Option Bool
  | .obj fields => some (((Json.obj fields).get (str "statusMessage")).bind Json.str? = some MARKER)
  | _ => none

/-- The handlers of a group that are not the bridge's. -/
def foreign : List Json → Option (List Json)
  | [] => some []
  | h::hs => do
    let own ← marked h
    let rest ← foreign hs
    some (if own then rest else h::rest)

/-- The groups of an event that keep a handler. -/
def retained : List Json → Option (List Json)
  | [] => some []
  | .obj fields :: groups => do
    let handlers ← items (((Json.obj fields).get (str "hooks")).getD (.arr []))
    let handlers ← foreign handlers
    let rest ← retained groups
    some (if handlers.isEmpty then rest
      else .obj (Dict.set fields (str "hooks") (.arr handlers)) :: rest)
  | _ => none

abbrev Groups := List (Str × Json)

/-- What the loop reads at an event. -/
def kept (event : Str) (groups : Groups) : Option (List Json) := do
  let entry ← items (((Json.obj groups).get event).getD (.arr []))
  retained entry

/-- What the loop writes at an event. -/
def write (command : Str) (remove : Bool) (event : Str) (groups : Groups) (retained : List Json) :
    Groups :=
  let retained := if remove then retained else retained ++ [hookDefinition command event]
  if retained.isEmpty then Dict.pop groups event else Dict.set groups event (.arr retained)

/-- The body of the loop over `EVENTS`. -/
def mergeEvent (command : Str) (remove : Bool) (groups : Groups) (event : Str) : Option Groups :=
  (kept event groups).map (write command remove event groups)

/-- `merge_hooks(existing, command, remove)`; none where it raises. The copy through text gives
the same value. -/
def mergeHooks (existing : Json) (command : Str) (remove : Bool := false) : Option Json :=
  match existing with
  | .obj fields =>
    let result := Dict.setDefault fields (str "hooks") (.obj [])
    match (Json.obj result).get (str "hooks") with
    | some (.obj groups) => (EVENTS.foldlM (mergeEvent command remove) groups).map fun groups =>
        .obj (Dict.set result (str "hooks") (.obj groups))
    | _ => none
  | _ => none

/-! What is read back. -/

/-- Nothing of the rest is the bridge's. -/
lemma foreign_foreign {hs ks : List Json} (h : foreign hs = some ks) : foreign ks = some ks := by
  induction hs generalizing ks with
  | nil =>
    cases h
    rfl
  | cons g hs ih =>
    simp only [foreign,Option.bind_eq_bind,Option.bind_eq_some_iff] at h
    obtain ⟨own,hown,rest,hrest,h⟩ := h
    have hagain := ih hrest
    cases own with
    | true =>
      cases h
      exact hagain
    | false =>
      obtain rfl := Option.some.inj h
      simp only [Bool.false_eq_true,if_false,foreign,hown,hagain]
      rfl

/-- The groups that were retained are retained as they are. -/
lemma retained_retained {gs ks : List Json} (h : retained gs = some ks) : retained ks = some ks := by
  induction gs using retained.induct generalizing ks with
  | case1 =>
    cases h
    rfl
  | case2 fields groups ih =>
    simp only [retained,Option.bind_eq_bind,Option.bind_eq_some_iff] at h
    obtain ⟨handlers,hitems,own,hown,rest,hrest,h⟩ := h
    have hagain := ih hrest
    cases hempty : own.isEmpty with
    | true =>
      rw [hempty] at h
      cases h
      exact hagain
    | false =>
      rw [hempty] at h
      obtain rfl := Option.some.inj h
      simp only [Bool.false_eq_true,if_false,retained,Json.get_set,if_true,Option.getD_some,items,
        hagain,foreign_foreign hown,Option.bind_eq_bind,Option.bind_some,hempty,Dict.set_set]
  | case3 groups hnil hobj =>
    rw [retained.eq_3 groups hnil hobj] at h
    cases h

/-- The bridge's own group is one handler with the marker. -/
lemma hookDefinition_eq (command event : Str) : ∃ handler,
    hookDefinition command event = .obj [(str "hooks",.arr [handler])] ∧
      marked handler = some true := by
  have hmarked : ∀ fields : List (Str × Json),
      (Json.obj fields).get (str "statusMessage") = some (.str MARKER) →
      marked (.obj fields) = some true := by
    intro fields h
    simp [marked,h,Json.str?]
  have hget : (Json.obj [(str "type",.str (str "command")),(str "command",.str command),
      (str "timeout",.int 3),(str "statusMessage",.str MARKER)]).get (str "statusMessage") =
      some (.str MARKER) := by
    simp [Json.get_obj]
  have hlimit : str "statusMessage" ≠ str "additionalContextLimit" := by decide
  refine ⟨_,rfl,?_⟩
  split_ifs
  · refine hmarked _ ?_
    rw [Json.get_set,if_neg hlimit]
    exact hget
  · exact hmarked _ hget

/-- The bridge's own group keeps nothing. -/
lemma retained_definition (command event : Str) :
    retained [hookDefinition command event] = some [] := by
  obtain ⟨handler,heq,hmarked⟩ := hookDefinition_eq command event
  simp [heq,retained,Json.get_obj,items,foreign,hmarked]

lemma retained_append_definition {gs ks : List Json} (command event : Str)
    (h : retained gs = some ks) : retained (gs ++ [hookDefinition command event]) = some ks := by
  induction gs using retained.induct generalizing ks with
  | case1 =>
    cases h
    exact retained_definition command event
  | case2 fields groups ih =>
    simp only [retained,Option.bind_eq_bind,Option.bind_eq_some_iff] at h
    obtain ⟨handlers,hitems,own,hown,rest,hrest,h⟩ := h
    simp only [List.cons_append,retained,hitems,hown,ih hrest,Option.bind_eq_bind,Option.bind_some]
    exact h
  | case3 groups hnil hobj =>
    rw [retained.eq_3 groups hnil hobj] at h
    cases h

/-! One event. -/

/-- The entry that is written; none if there is nothing to write. -/
def entry (command : Str) (remove : Bool) (event : Str) (retained : List Json) : Option Json :=
  let retained := if remove then retained else retained ++ [hookDefinition command event]
  if retained.isEmpty then none else some (.arr retained)

lemma get_write (command : Str) (remove : Bool) (event : Str) (groups : Groups) (ks : List Json)
    (e : Str) : (Json.obj (write command remove event groups ks)).get e =
      if e = event then entry command remove event ks else (Json.obj groups).get e := by
  unfold write entry
  dsimp only
  generalize (if remove = true then ks else ks ++ [hookDefinition command event]) = written
  cases written.isEmpty with
  | true => exact Json.get_pop groups event e
  | false => exact Json.get_set groups event e _

lemma kept_write_ne {event e : Str} (h : e ≠ event) (command : Str) (remove : Bool)
    (groups : Groups) (ks : List Json) :
    kept e (write command remove event groups ks) = kept e groups := by
  unfold kept
  rw [get_write,if_neg h]

/-- Reading again gives what was read before. -/
lemma kept_write {event : Str} {groups : Groups} {ks : List Json} (command : Str) (remove : Bool)
    (h : kept event groups = some ks) :
    kept event (write command remove event groups ks) = some ks := by
  obtain ⟨gs,-,hgs⟩ := Option.bind_eq_some_iff.mp h
  have hagain := retained_retained hgs
  unfold kept
  rw [get_write,if_pos rfl]
  unfold entry
  cases remove with
  | true =>
    cases hempty : ks.isEmpty with
    | true =>
      rw [List.isEmpty_iff.mp hempty]
      rfl
    | false =>
      simp only [if_true,hempty,Bool.false_eq_true,if_false,Option.getD_some]
      exact hagain
  | false =>
    have hfull : (ks ++ [hookDefinition command event]).isEmpty = false := by simp
    simp only [Bool.false_eq_true,if_false,hfull,Option.getD_some]
    exact retained_append_definition command event hagain

lemma write_install (command event : Str) (groups : Groups) (ks : List Json) :
    write command false event groups ks =
      Dict.set groups event (.arr (ks ++ [hookDefinition command event])) := by
  simp [write]

lemma mem_keys_install {command event : Str} {groups : Groups} {ks : List Json} {e : Str} :
    e ∈ Dict.keys (write command false event groups ks) ↔ e = event ∨ e ∈ Dict.keys groups := by
  rw [write_install]
  exact Dict.mem_keys_set

/-- What was installed before is overwritten. -/
lemma write_write (c d event : Str) (remove : Bool) (groups : Groups) (ks : List Json) :
    write d remove event (write c false event groups ks) ks = write d remove event groups ks := by
  rw [write_install]
  unfold write
  dsimp only
  generalize (if remove = true then ks else ks ++ [hookDefinition d event]) = written
  cases written.isEmpty with
  | true => exact Dict.pop_set groups event _
  | false => exact Dict.set_set groups event _ _

/-- An event that is there can be written before or after another one. -/
lemma write_comm {event e : Str} (hne : event ≠ e) {groups : Groups}
    (hevent : event ∈ Dict.keys groups) (c d : Str) (remove : Bool) (ks js : List Json) :
    write d remove event (write c false e groups js) ks =
      write c false e (write d remove event groups ks) js := by
  rw [write_install,write_install]
  unfold write
  dsimp only
  generalize (if remove = true then ks else ks ++ [hookDefinition d event]) = written
  cases written.isEmpty with
  | true => exact Dict.pop_set_comm hne _
  | false => exact (Dict.set_comm hne hevent _ _).symm

lemma mergeEvent_comm {event e : Str} (hne : event ≠ e) {groups : Groups}
    (hevent : event ∈ Dict.keys groups) (c d : Str) (remove : Bool) :
    ((mergeEvent c false groups e).bind fun g => mergeEvent d remove g event) =
      (mergeEvent d remove groups event).bind fun g => mergeEvent c false g e := by
  unfold mergeEvent
  cases hks : kept event groups with
  | none =>
    cases hjs : kept e groups with
    | none => rfl
    | some js => simp [kept_write_ne hne,hks]
  | some ks =>
    cases hjs : kept e groups with
    | none => simp [kept_write_ne hne.symm,hjs]
    | some js =>
      simp only [Option.map_some,Option.bind_some,kept_write_ne hne,kept_write_ne hne.symm,hks,hjs]
      rw [write_comm hne hevent]

/-! The loop. -/

lemma foldlM_comm {event : Str} {es : List Str} (hnot : event ∉ es) {groups : Groups}
    (hevent : event ∈ Dict.keys groups) (c d : Str) (remove : Bool) :
    ((es.foldlM (mergeEvent c false) groups).bind fun g => mergeEvent d remove g event) =
      (mergeEvent d remove groups event).bind fun g => es.foldlM (mergeEvent c false) g := by
  induction es generalizing groups with
  | nil =>
    cases h : mergeEvent d remove groups event with
    | none => simpa using h
    | some g => simpa using h
  | cons e es ih =>
    have hne : event ≠ e := fun h => hnot (h ▸ List.mem_cons_self ..)
    have hrest : event ∉ es := fun h => hnot (List.mem_cons_of_mem _ h)
    have hcomm := mergeEvent_comm hne hevent c d remove
    simp only [List.foldlM_cons,Option.bind_eq_bind]
    rw [← Option.bind_assoc,← hcomm]
    cases hfirst : mergeEvent c false groups e with
    | none => rfl
    | some g =>
      have hmem : event ∈ Dict.keys g := by
        obtain ⟨js,-,rfl⟩ := Option.map_eq_some_iff.mp hfirst
        exact mem_keys_install.mpr (Or.inr hevent)
      exact ih hrest hmem

/-- Whatever an installation has written, the next pass overwrites. -/
theorem foldlM_absorb {es : List Str} (hnodup : es.Nodup) (groups : Groups) (c d : Str)
    (remove : Bool) : ((es.foldlM (mergeEvent c false) groups).bind fun g =>
      es.foldlM (mergeEvent d remove) g) = es.foldlM (mergeEvent d remove) groups := by
  induction es generalizing groups with
  | nil => rfl
  | cons e es ih =>
    obtain ⟨hnot,hnodup⟩ := List.nodup_cons.mp hnodup
    simp only [List.foldlM_cons,Option.bind_eq_bind]
    cases hks : kept e groups with
    | none => simp [mergeEvent,hks]
    | some ks =>
      have hfirst : mergeEvent c false groups e = some (write c false e groups ks) := by
        simp [mergeEvent,hks]
      have hagain : mergeEvent d remove (write c false e groups ks) e =
          mergeEvent d remove groups e := by
        simp only [mergeEvent,kept_write c false hks,hks,Option.map_some,write_write]
      have hmem : e ∈ Dict.keys (write c false e groups ks) := mem_keys_install.mpr (Or.inl rfl)
      rw [hfirst,Option.bind_some,← Option.bind_assoc,foldlM_comm hnot hmem,hagain]
      cases mergeEvent d remove groups e with
      | none => rfl
      | some g => exact ih hnodup g

/-- What the loop leaves at each key. -/
theorem foldlM_get {es : List Str} (hnodup : es.Nodup) {groups groups' : Groups} {command : Str}
    {remove : Bool} (h : es.foldlM (mergeEvent command remove) groups = some groups') (e : Str) :
    (e ∉ es → (Json.obj groups').get e = (Json.obj groups).get e) ∧
    (e ∈ es → ∃ ks, kept e groups = some ks ∧
      (Json.obj groups').get e = entry command remove e ks) := by
  induction es generalizing groups with
  | nil =>
    cases h
    exact ⟨fun _ => rfl,fun h => absurd h List.not_mem_nil⟩
  | cons event es ih =>
    obtain ⟨hnot,hnodup⟩ := List.nodup_cons.mp hnodup
    rw [List.foldlM_cons] at h
    obtain ⟨g,hg,hrest⟩ := Option.bind_eq_some_iff.mp h
    obtain ⟨ks,hks,rfl⟩ := Option.map_eq_some_iff.mp hg
    obtain ⟨hout,hin⟩ := ih hnodup hrest
    by_cases he : e = event
    · subst he
      refine ⟨fun h => absurd (List.mem_cons_self ..) h,fun _ => ⟨ks,hks,?_⟩⟩
      rw [hout hnot,get_write,if_pos rfl]
    · constructor
      · intro hmem
        rw [hout fun h => hmem (List.mem_cons_of_mem _ h),get_write,if_neg he]
      · intro hmem
        obtain ⟨js,hjs,hget⟩ := hin ((List.mem_cons.mp hmem).resolve_left he)
        rw [kept_write_ne he] at hjs
        exact ⟨js,hjs,hget⟩

lemma EVENTS_nodup : EVENTS.Nodup := by decide

/-- The document that a merge makes. -/
lemma mergeHooks_eq_some {x y : Json} {command : Str} {remove : Bool}
    (h : mergeHooks x command remove = some y) : ∃ fields groups groups',
      x = .obj fields ∧
      (Json.obj (Dict.setDefault fields (str "hooks") (.obj []))).get (str "hooks") =
        some (.obj groups) ∧
      EVENTS.foldlM (mergeEvent command remove) groups = some groups' ∧
      y = .obj (Dict.set (Dict.setDefault fields (str "hooks") (.obj [])) (str "hooks")
        (.obj groups')) := by
  unfold mergeHooks at h
  cases x with
  | obj fields =>
    dsimp only at h
    split at h
    · rename_i groups hgroups
      obtain ⟨groups',hfold,rfl⟩ := Option.map_eq_some_iff.mp h
      exact ⟨fields,groups,groups',rfl,hgroups,hfold,rfl⟩
    · cases h
  | _ => cases h

/-- A merge after an installation does what it would have done without it. -/
theorem mergeHooks_absorb {x y : Json} {c : Str} (h : mergeHooks x c = some y) (d : Str)
    (remove : Bool) : mergeHooks y d remove = mergeHooks x d remove := by
  obtain ⟨fields,groups,groups',rfl,hgroups,hfold,rfl⟩ := mergeHooks_eq_some h
  have habsorb := foldlM_absorb EVENTS_nodup groups c d remove
  rw [hfold,Option.bind_some] at habsorb
  have hkey : str "hooks" ∈ Dict.keys (Dict.set (Dict.setDefault fields (str "hooks") (.obj []))
      (str "hooks") (.obj groups')) := Dict.mem_keys_set.mpr (Or.inl rfl)
  have hdefault : Dict.setDefault (Dict.set (Dict.setDefault fields (str "hooks") (.obj []))
      (str "hooks") (.obj groups')) (str "hooks") (.obj []) =
      Dict.set (Dict.setDefault fields (str "hooks") (.obj [])) (str "hooks") (.obj groups') :=
    if_pos ((Dict.any_key_iff ..).mpr hkey)
  have hget : (Json.obj (Dict.set (Dict.setDefault fields (str "hooks") (.obj [])) (str "hooks")
      (.obj groups'))).get (str "hooks") = some (.obj groups') := by
    rw [Json.get_set,if_pos rfl]
  simp only [mergeHooks,hgroups,hdefault,hget,habsorb,Dict.set_set]

end PeerChat.Setup
