import PeerChat.Registry.Sources

/-! When a discovery succeeds, which threads it lists, and from which source each row comes. -/
namespace PeerChat.Registry
open Python Relational

variable {D : Disk} {codexHomes : List Str} {discover : Bool}

/-! The bridges. -/

/-- The row of a bridge: the lock row of the same owner, if there is one. -/
def mergedRow (D : Disk) (locked : List Session) (thread : Str) (bridge : BridgeInfo) :
    Except Exc Session :=
  match locked.find? (·.thread = thread) with
  | some row =>
    if Json.eq D.float row.ownerIdentity bridge.ownerIdentity then
      .ok { row with bridge := some bridge }
    else bridgeRow D thread bridge
  | none => bridgeRow D thread bridge

/-- Does the process of the bridge run under the identity that it names, or neither exist? -/
def Matches (D : Disk) (bridge : BridgeInfo) : Prop :=
  isInt bridge.ownerPid = true ∧ bridge.ownerIdentity = optionJson (D.processIdentity bridge.ownerPid)

instance (bridge : BridgeInfo) : Decidable (Matches D bridge) :=
  decidable_of_iff (isInt bridge.ownerPid = true ∧ Json.eq D.float
    (optionJson (D.processIdentity bridge.ownerPid)) bridge.ownerIdentity = true)
    (and_congr_right fun _ => eq_optionJson)

/-- The row that an entry of the state directory adds, unless its thread is there already. -/
def entryRow (D : Disk) (locked : List Session) (entry : StateEntry) : Except Exc (Option Session) :=
  if validId entry.name ∧ entry.isDir then do
    match ← D.bridge entry.name with
    | none => .ok none
    | some bridge =>
      if Matches D bridge then do
        let row ← mergedRow D locked entry.name bridge
        .ok (some row)
      else .ok none
  else .ok none

lemma bridgeRow_eq_ok {thread : Str} {bridge : BridgeInfo} {row : Session}
    (h : bridgeRow D thread bridge = .ok row) : row.thread = thread ∧ row.updatedAt = .null ∧
      row.ownerPid = bridge.ownerPid ∧ row.ownerIdentity = bridge.ownerIdentity := by
  obtain ⟨stored,-,h⟩ := bind_eq_ok.mp h
  cases h
  exact ⟨rfl,rfl,rfl,rfl⟩

lemma bridgeRow_isOk (hread : Readable D) {thread : Str} {bridge : BridgeInfo} :
    (∃ row, bridgeRow D thread bridge = .ok row) ↔ (Stored D thread →
      Json.truthy D.float bridge.codexHome = true → ∃ home, bridge.codexHome = .str home) := by
  have hname : (∃ row, bridgeRow D thread bridge = .ok row) ↔ ∃ name, storedName D thread
      (if Json.truthy D.float bridge.codexHome then bridge.codexHome else .str []) = .ok name := by
    constructor
    · rintro ⟨row,h⟩
      obtain ⟨stored,hstored,-⟩ := bind_eq_ok.mp h
      exact ⟨stored,hstored⟩
    · rintro ⟨stored,hstored⟩
      exact ⟨_,bind_eq_ok.mpr ⟨stored,hstored,rfl⟩⟩
  rw [hname,hread.storedName_isOk]
  refine imp_congr_right fun _ => ?_
  split_ifs with htrue
  · simp [htrue]
  · exact ⟨fun _ h => absurd h htrue,fun _ => ⟨[],rfl⟩⟩

lemma entryRow_eq_some {locked : List Session} {entry : StateEntry} {row : Session} :
    entryRow D locked entry = .ok (some row) ↔ validId entry.name = true ∧ entry.isDir = true ∧
      ∃ bridge, D.bridge entry.name = .ok (some bridge) ∧ Matches D bridge ∧
        mergedRow D locked entry.name bridge = .ok row := by
  unfold entryRow
  constructor
  · intro h
    split_ifs at h with hentry
    · obtain ⟨found,hbridge,h⟩ := bind_eq_ok.mp h
      cases found with
      | none => cases h
      | some bridge =>
        simp only at h
        split_ifs at h with hmatch
        · obtain ⟨merged,hmerged,h⟩ := bind_eq_ok.mp h
          cases h
          exact ⟨hentry.1,hentry.2,bridge,hbridge,hmatch,hmerged⟩
        · cases h
    · cases h
  · rintro ⟨hvalid,hdir,bridge,hbridge,hmatch,hmerged⟩
    rw [if_pos ⟨hvalid,hdir⟩]
    simp only [hbridge,bind,Except.bind,if_pos hmatch,hmerged]

/-- What one entry adds. -/
lemma addBridge_eq (locked rows : List Session) (entry : StateEntry) :
    addBridge D locked rows entry = if entry.name ∈ rows.map (·.thread) then .ok rows
      else (fun row => rows ++ row.toList) <$> entryRow D locked entry := by
  have hany : rows.any (·.thread = entry.name) = true ↔ entry.name ∈ rows.map (·.thread) := by
    simp [List.any_eq_true,List.mem_map]
  unfold addBridge entryRow
  by_cases hseen : entry.name ∈ rows.map (·.thread)
  · rw [if_pos hseen,if_pos (Or.inl (hany.mpr hseen))]
  · rw [if_neg hseen]
    by_cases hentry : validId entry.name = true ∧ entry.isDir = true
    · rw [if_neg (by simp only [hany,hseen,hentry.1,hentry.2,not_true_eq_false,or_self,not_false_eq_true]),
        if_pos hentry]
      cases D.bridge entry.name with
      | error exc => rfl
      | ok found =>
        cases found with
        | none => simp [bind,Except.bind,Functor.map,Except.map]
        | some bridge =>
          simp only [bind,Except.bind]
          by_cases hint : isInt bridge.ownerPid = true
          · by_cases hid : Json.eq D.float (optionJson (D.processIdentity bridge.ownerPid))
                bridge.ownerIdentity = true
            · have hmatch : Matches D bridge := ⟨hint,eq_optionJson.mp hid⟩
              rw [if_neg (not_not.mpr hint),if_neg (not_not.mpr hid),if_pos hmatch]
              unfold mergedRow
              cases locked.find? (·.thread = entry.name) with
              | none => cases bridgeRow D entry.name bridge <;> rfl
              | some row =>
                simp only
                split_ifs
                · rfl
                · cases bridgeRow D entry.name bridge <;> rfl
            · have hmatch : ¬ Matches D bridge := fun h => hid (eq_optionJson.mpr h.2)
              rw [if_neg (not_not.mpr hint),if_pos hid,if_neg hmatch]
              simp [Functor.map,Except.map]
          · have hmatch : ¬ Matches D bridge := fun h => hint h.1
            rw [if_pos hint,if_neg hmatch]
            simp [Functor.map,Except.map]
    · rw [if_pos,if_neg hentry]
      · simp [Functor.map,Except.map]
      · right
        by_contra hnot
        simp only [not_or,not_not] at hnot
        exact hentry hnot

section
variable {locked : List Session} (hlocked : lockRows D codexHomes discover = .ok locked)
include hlocked

lemma mergedRow_eq_ok {thread : Str} {bridge : BridgeInfo} {row : Session}
    (h : mergedRow D locked thread bridge = .ok row) : row.thread = thread ∧ row.updatedAt = .null ∧
      row.ownerIdentity = bridge.ownerIdentity ∧
      (bridgeRow D thread bridge = .ok row ∨ ∃ lock ∈ locked, lock.thread = thread ∧
        lock.ownerIdentity = bridge.ownerIdentity ∧ row = { lock with bridge := some bridge }) := by
  have hplain : bridgeRow D thread bridge = .ok row → row.thread = thread ∧ row.updatedAt = .null ∧
      row.ownerIdentity = bridge.ownerIdentity := by
    intro hrow
    obtain ⟨hthread,htime,-,hidentity⟩ := bridgeRow_eq_ok hrow
    exact ⟨hthread,htime,hidentity⟩
  unfold mergedRow at h
  cases hfind : locked.find? (·.thread = thread) with
  | none =>
    rw [hfind] at h
    obtain ⟨hthread,htime,hidentity⟩ := hplain h
    exact ⟨hthread,htime,hidentity,Or.inl h⟩
  | some lock =>
    have hthread : lock.thread = thread := by simpa using List.find?_some hfind
    have hmem := List.mem_of_find?_eq_some hfind
    obtain ⟨htime,pid,identity,-,-,hname⟩ := locked_owner hlocked hmem
    rw [hfind] at h
    simp only at h
    split_ifs at h with howner
    · have hsame : lock.ownerIdentity = bridge.ownerIdentity := by
        rw [hname] at howner ⊢
        exact (eq_str.mp howner).symm
      cases h
      exact ⟨hthread,htime,hsame,Or.inr ⟨lock,hmem,hthread,hsame,rfl⟩⟩
    · obtain ⟨hthread,htime,hidentity⟩ := hplain h
      exact ⟨hthread,htime,hidentity,Or.inl h⟩

/-- The row of a live bridge is found, unless a name is looked up with a home that is no text. -/
lemma mergedRow_isOk (hread : Readable D) {thread : Str} {bridge : BridgeInfo} {identity : Str}
    (hidentity : bridge.ownerIdentity = .str identity) :
    (∃ row, mergedRow D locked thread bridge = .ok row) ↔
      ((∀ lock ∈ locked, lock.thread = thread → lock.ownerIdentity ≠ .str identity) →
        Stored D thread → Json.truthy D.float bridge.codexHome = true →
        ∃ home, bridge.codexHome = .str home) := by
  unfold mergedRow
  cases hfind : locked.find? (·.thread = thread) with
  | none =>
    have hnone : ∀ lock ∈ locked, lock.thread = thread → lock.ownerIdentity ≠ .str identity := by
      intro lock hlock hthread
      have := List.find?_eq_none.mp hfind lock hlock
      simp [hthread] at this
    rw [bridgeRow_isOk hread]
    exact ⟨fun h _ => h,fun h => h hnone⟩
  | some lock =>
    have hthread : lock.thread = thread := by simpa using List.find?_some hfind
    have hmem := List.mem_of_find?_eq_some hfind
    have honly : ∀ other ∈ locked, other.thread = thread → other = lock := fun other hother h =>
      List.inj_on_of_nodup_map (nodup_locked hlocked) hother hmem (h.trans hthread.symm)
    obtain ⟨-,pid,name,-,-,hname⟩ := locked_owner hlocked hmem
    simp only
    split_ifs with howner
    · refine ⟨fun _ hother => ?_,fun _ => ⟨_,rfl⟩⟩
      rw [hname,hidentity,eq_str] at howner
      exact absurd (hname.trans howner.symm) (hother lock hmem hthread)
    · rw [bridgeRow_isOk hread]
      refine ⟨fun h _ => h,fun h => h ?_⟩
      intro other hother hsame heq
      rw [honly other hother hsame,hname] at heq
      rw [hname,hidentity] at howner
      exact howner (eq_str.mpr heq.symm)

lemma entryRow_thread {entry : StateEntry} {row : Session}
    (h : entryRow D locked entry = .ok (some row)) : row.thread = entry.name := by
  obtain ⟨-,-,bridge,-,-,hmerged⟩ := entryRow_eq_some.mp h
  exact (mergedRow_eq_ok hlocked hmerged).1

/-- The loop over the state directory. -/
lemma foldlM_addBridge {entries : List StateEntry} (hnodup : (entries.map (·.name)).Nodup)
    (rows : List Session) : entries.foldlM (addBridge D locked) rows = (rows ++ ·) <$>
      collect (entryRow D locked) (entries.filter fun entry => entry.name ∉ rows.map (·.thread)) := by
  induction entries generalizing rows with
  | nil => simp [collect,Functor.map,Except.map,pure,Except.pure]
  | cons entry entries ih =>
    rw [List.map_cons,List.nodup_cons] at hnodup
    rw [List.foldlM_cons,addBridge_eq]
    by_cases hseen : entry.name ∈ rows.map (·.thread)
    · rw [if_pos hseen,List.filter_cons_of_neg (by simpa using hseen)]
      exact ih hnodup.2 rows
    · rw [if_neg hseen,List.filter_cons_of_pos (by simpa using hseen)]
      cases hrow : entryRow D locked entry with
      | error exc => simp [collect,hrow,bind,Except.bind,Functor.map,Except.map]
      | ok found =>
        have hsame : (entries.filter fun e => e.name ∉ (rows ++ found.toList).map (·.thread)) =
            entries.filter fun e => e.name ∉ rows.map (·.thread) := by
          refine List.filter_congr fun e he => ?_
          have hne : ∀ row ∈ found.toList, row.thread ≠ e.name := by
            intro row hmem heq
            have hfound : found = some row := by simpa using hmem
            rw [hfound] at hrow
            rw [entryRow_thread hlocked hrow] at heq
            exact hnodup.1 (heq ▸ List.mem_map_of_mem he)
          have hnot : e.name ∉ found.toList.map (·.thread) := by
            intro hmem
            obtain ⟨row,hrow,heq⟩ := List.mem_map.mp hmem
            exact hne row hrow heq
          simp only [List.map_append,List.mem_append,hnot,or_false]
        change entries.foldlM (addBridge D locked) (rows ++ found.toList) = _
        rw [ih hnodup.2,hsame,collect_cons hrow]
        generalize collect (entryRow D locked) _ = rest
        cases rest <;> simp [Functor.map,Except.map]

end

/-! The rows that are found. -/

/-- The rows of the three sources, those of the bridges without the registered threads. -/
structure Found (D : Disk) (codexHomes : List Str) (discover : Bool)
    (locked registered bridged : List Session) : Prop where
  locked_eq : lockRows D codexHomes discover = .ok locked
  registered_eq : collect (registeredRow D) D.registry = .ok registered
  bridged_eq : collect (entryRow D locked)
    (D.entries.filter fun entry => entry.name ∉ registered.map (·.thread)) = .ok bridged

lemma foundRows_eq_ok {rows : List Session} : foundRows D codexHomes discover = .ok rows ↔
    ∃ locked registered bridged, Found D codexHomes discover locked registered bridged ∧
      rows = addAll (·.thread) (registered ++ bridged) locked := by
  unfold foundRows
  simp only [bind_eq_ok,Except.ok.injEq]
  constructor
  · rintro ⟨locked,hlocked,registered,hregistered,found,hfound,rfl⟩
    rw [foldlM_addBridge hlocked D.entries_nodup] at hfound
    obtain ⟨bridged,hbridged,rfl⟩ := map_eq_ok.mp hfound
    exact ⟨locked,registered,bridged,⟨hlocked,hregistered,hbridged⟩,rfl⟩
  · rintro ⟨locked,registered,bridged,⟨hlocked,hregistered,hbridged⟩,rfl⟩
    refine ⟨locked,hlocked,registered,hregistered,registered ++ bridged,?_,rfl⟩
    rw [foldlM_addBridge hlocked D.entries_nodup]
    exact map_eq_ok.mpr ⟨bridged,hbridged,rfl⟩

/-- A bridge that matches names a live process, or no process and no identity. -/
lemma matches_cases {thread : Str} {bridge : BridgeInfo} (hbridge : HasBridge D thread bridge)
    (h : Matches D bridge) : (∃ pid identity, Bridges D thread bridge pid identity) ∨
      Unnamed D thread ∧ bridge.ownerIdentity = .null := by
  obtain ⟨hint,hidentity⟩ := h
  cases hid : D.processIdentity bridge.ownerPid with
  | none =>
    rw [hid] at hidentity
    exact Or.inr ⟨⟨bridge,hbridge,hint,hidentity,hid⟩,hidentity⟩
  | some identity =>
    rw [hid] at hidentity
    obtain ⟨pid,hpid,hlive⟩ := processIdentity_eq_some hid
    exact Or.inl ⟨pid,identity,hbridge,hpid,hidentity,hlive⟩

namespace Found
variable {locked registered bridged : List Session}
  (h : Found D codexHomes discover locked registered bridged)
include h

end Found

/-! The listing. -/

lemma ListsOnce.perm {rows rows' : List Session} (h : ListsOnce D codexHomes discover rows)
    (hperm : rows'.Perm rows) : ListsOnce D codexHomes discover rows' where
  once := ((hperm.map _).nodup_iff).mpr h.once
  live thread := by rw [(hperm.map _).mem_iff,h.live]
  registered row hrow := h.registered row (hperm.mem_iff.mp hrow)
  bridged row hrow := h.bridged row (hperm.mem_iff.mp hrow)
  locked row hrow := h.locked row (hperm.mem_iff.mp hrow)

/-- The rows are found where the files allow it. -/
lemma Discoverable.found (h : Discoverable D codexHomes discover) :
    ∃ rows, foundRows D codexHomes discover = .ok rows := by
  have hread : Readable D := ⟨h.files,h.bridges⟩
  obtain ⟨locked,hlocked⟩ := lockRows_isOk.mpr ⟨hread,h.metas⟩
  obtain ⟨registered,hregistered⟩ := collect_isOk.mpr fun file hfile => registeredRow_isOk hread hfile
  obtain ⟨bridged,hbridged⟩ : ∃ bridged, collect (entryRow D locked)
      (D.entries.filter fun entry => entry.name ∉ registered.map (·.thread)) = .ok bridged := by
    rw [collect_isOk]
    intro entry hentry
    obtain ⟨hmem,hnew⟩ := List.mem_filter.mp hentry
    have hunregistered : ∀ pid identity, ¬ Registers D entry.name pid identity :=
      fun pid identity hreg => of_decide_eq_true hnew
        ((registered_iff hregistered).mpr ⟨pid,identity,hreg⟩)
    unfold entryRow
    split_ifs with hvalid
    · obtain ⟨found,hbridge⟩ := h.bridges entry hmem hvalid.2 hvalid.1
      cases found with
      | none => exact ⟨none,by simp only [hbridge,bind,Except.bind]⟩
      | some bridge =>
        simp only [hbridge,bind,Except.bind]
        split_ifs with hmatch
        · have hhas : HasBridge D entry.name bridge := ⟨⟨entry,hmem,rfl,hvalid.2⟩,hvalid.1,hbridge⟩
          obtain ⟨pid,identity,hbridges⟩ | ⟨hunnamed,-⟩ := matches_cases hhas hmatch
          · obtain ⟨row,hrow⟩ := (mergedRow_isOk hlocked hread hbridges.2.2.1).mpr
              fun hlocks => h.homes _ bridge pid identity hbridges hunregistered
                fun lock hlock => by
                  obtain ⟨other,hother,hlock⟩ := hlock
                  rw [hlocked] at hother
                  cases hother
                  exact hlocks lock hlock
            exact ⟨some row,by simp only [hrow]⟩
          · obtain ⟨pid,identity,hreg⟩ := h.named _ hunnamed
            exact absurd hreg (hunregistered pid identity)
        · exact ⟨none,rfl⟩
    · exact ⟨none,rfl⟩
  exact ⟨_,foundRows_eq_ok.mpr ⟨locked,registered,bridged,⟨hlocked,hregistered,hbridged⟩,rfl⟩⟩

end PeerChat.Registry
