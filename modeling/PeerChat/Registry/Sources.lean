import PeerChat.Python.JsonRoundTrip
import PeerChat.Registry.Sessions

/-! The sources of a discovery: which threads are live, what is read of them, and the rows of the
registrations and of the writer locks. -/
namespace PeerChat.Registry
open Python Relational

variable {D : Disk} {codexHomes : List Str} {discover : Bool}

/-! The live sources of a thread. -/

/-- A registration file of the thread names a process that runs under the named identity. -/
def Registers (D : Disk) (thread : Str) (pid : Pid) (identity : Str) : Prop :=
  ∃ file ∈ D.registry, ∃ record, readRecord D file = .ok (some record) ∧ record.thread = thread ∧
    record.ownerPid = .int pid ∧ record.ownerIdentity = identity ∧ D.identity pid = some identity

/-- There is a directory of the thread with this bridge. -/
def HasBridge (D : Disk) (thread : Str) (bridge : BridgeInfo) : Prop :=
  (∃ entry ∈ D.entries, entry.name = thread ∧ entry.isDir = true) ∧ validId thread = true ∧
    D.bridge thread = .ok (some bridge)

/-- The configuration of the bridge names a process that runs under the named identity. -/
def Bridges (D : Disk) (thread : Str) (bridge : BridgeInfo) (pid : Pid) (identity : Str) : Prop :=
  HasBridge D thread bridge ∧ bridge.ownerPid = .int pid ∧ bridge.ownerIdentity = .str identity ∧
    D.identity pid = some identity

/-- A home that is scanned: the default, a given one, or one that a file or a bridge names. -/
def Scans (D : Disk) (codexHomes : List Str) (home : Str) : Prop :=
  home = D.defaultHome ∨ home ∈ codexHomes.map pathText ∨
    (∃ file ∈ D.registry, fileHome file = .ok (some home)) ∨
    ∃ entry ∈ D.entries, entryHome D entry = .ok (some home)

/-- A live process holds the lock of the file. -/
def Holds (D : Disk) (file : LockFile) (pid : Pid) (identity : Str) : Prop :=
  validId file.thread = true ∧ file.symlink = false ∧ file.regular = true ∧
    (∃ holder, file.holder = some holder ∧ holder.pid = pid) ∧ D.identity pid = some identity

/-- A process holds the writer lock of the thread, which is no child, in a home that is scanned. -/
def Locks (D : Disk) (codexHomes : List Str) (discover : Bool) (thread : Str) (pid : Pid)
    (identity : Str) : Prop :=
  discover = true ∧ ∃ home, Scans D codexHomes home ∧ ∃ file ∈ D.locks home, file.thread = thread ∧
    Holds D file pid identity ∧ ∃ data, D.threadMeta home thread = .ok data ∧ data.isChild = false

/-- The thread has a live source. -/
def Live (D : Disk) (codexHomes : List Str) (discover : Bool) (thread : Str) : Prop :=
  ∃ pid identity, Registers D thread pid identity ∨ (∃ bridge, Bridges D thread bridge pid identity) ∨
    Locks D codexHomes discover thread pid identity

/-- A row that the lock files give. -/
def LockRow (D : Disk) (codexHomes : List Str) (discover : Bool) (row : Session) : Prop :=
  ∃ locked, lockRows D codexHomes discover = .ok locked ∧ row ∈ locked

/-- The rows list every live thread once and no other, each with the owner that its first live source
names. -/
structure ListsOnce (D : Disk) (codexHomes : List Str) (discover : Bool) (rows : List Session) :
    Prop where
  once : (rows.map (·.thread)).Nodup
  live : ∀ thread, thread ∈ rows.map (·.thread) ↔ Live D codexHomes discover thread
  registered : ∀ row ∈ rows, ∀ pid identity, Registers D row.thread pid identity →
    row.ownerPid = .int pid ∧ row.ownerIdentity = .str identity
  bridged : ∀ row ∈ rows, (∀ pid identity, ¬ Registers D row.thread pid identity) →
    ∀ bridge pid identity, Bridges D row.thread bridge pid identity →
      row.ownerPid = .int pid ∧ row.ownerIdentity = .str identity ∧
      (bridgeRow D row.thread bridge = .ok row ∨ ∃ lock, LockRow D codexHomes discover lock ∧
        lock.ownerIdentity = .str identity ∧ row = { lock with bridge := some bridge })
  locked : ∀ row ∈ rows, (∀ pid identity, ¬ Registers D row.thread pid identity) →
    (∀ bridge pid identity, ¬ Bridges D row.thread bridge pid identity) →
    LockRow D codexHomes discover row ∧ ∃ pid identity,
      Locks D codexHomes discover row.thread pid identity ∧ row.ownerPid = .int pid ∧
      row.ownerIdentity = .str identity

/-- A bridge whose configuration has an owner's process id of no live process, and null for its
identity. -/
def Unnamed (D : Disk) (thread : Str) : Prop :=
  ∃ bridge, HasBridge D thread bridge ∧ isInt bridge.ownerPid = true ∧
    bridge.ownerIdentity = .null ∧ D.processIdentity bridge.ownerPid = none

/-- A registration file of the thread, whose name counts if its home is that of the row. -/
def Stored (D : Disk) (thread : Str) : Prop :=
  ∃ file ∈ D.registry, file.stem = thread ∧ file.symlink = false ∧ file.regular = true ∧
    ∃ data, file.text = .value data ∧ strAt "thread" data = some thread

/-- The value by which the row of the thread is sorted. -/
def SortsBy (D : Disk) (thread : Str) (v : Json) : Prop :=
  (∃ file ∈ D.registry, ∃ record, readRecord D file = .ok (some record) ∧ record.thread = thread ∧
    record.alive D = true ∧ v = sortKey D (record.field "updated_at")) ∨
  (∀ pid identity, ¬ Registers D thread pid identity) ∧ v = .int 0

/-- What a discovery asks of the files: no bridge of an unregistered thread names a dead process and no
identity; nothing that is read raises an exception; the home of a bridge is a text wherever a name is
looked up with it; and the times of any two rows can be compared. -/
structure Discoverable (D : Disk) (codexHomes : List Str) (discover : Bool) : Prop where
  named : ∀ thread, Unnamed D thread → ∃ pid identity, Registers D thread pid identity
  files : ∀ file ∈ D.registry, file.symlink = false → file.text ≠ .tooDeep
  bridges : ∀ entry ∈ D.entries, entry.isDir = true → validId entry.name = true →
    ∃ bridge, D.bridge entry.name = .ok bridge
  metas : discover = true → ∀ home, Scans D codexHomes home → ∀ file ∈ D.locks home,
    ∀ pid identity, Holds D file pid identity → ∃ data, D.threadMeta home file.thread = .ok data
  homes : ∀ thread bridge pid identity, Bridges D thread bridge pid identity →
    (∀ pid identity, ¬ Registers D thread pid identity) →
    (∀ lock, LockRow D codexHomes discover lock → lock.thread = thread →
      lock.ownerIdentity ≠ .str identity) →
    Stored D thread → Json.truthy D.float bridge.codexHome = true →
    ∃ home, bridge.codexHome = .str home
  times : ∀ thread thread', thread ≠ thread' → Live D codexHomes discover thread →
    Live D codexHomes discover thread' → ∀ v v', SortsBy D thread v → SortsBy D thread' v' →
    Json.Comparable D.float v v'

/-! Process identities. -/

lemma processIdentity_eq_some {v : Json} {identity : Str}
    (h : D.processIdentity v = some identity) : ∃ pid, v = .int pid ∧ D.identity pid = some identity := by
  cases v with
  | int pid => exact ⟨pid,rfl,h⟩
  | _ => cases h

lemma eq_optionJson {F : Str → FloatValue} {s : Option Str} {v : Json} :
    Json.eq F (optionJson s) v = true ↔ v = optionJson s := by
  cases s with
  | none => cases v <;> simp [optionJson,Json.eq]
  | some s => cases v <;> simp [optionJson,Json.eq,eq_comm (a := s)]

lemma eq_str {F : Str → FloatValue} {s : Str} {v : Json} :
    Json.eq F (.str s) v = true ↔ v = .str s := eq_optionJson (s := some s)

/-! What a discovery reads. -/

lemma load_isOk {text : FileText} : (∃ data, text.load = .ok data) ↔ text ≠ .tooDeep := by
  cases text <;> simp [FileText.load]

lemma fileHome_isOk {file : RegistryFile} :
    (∃ home, fileHome file = .ok home) ↔ (file.symlink = false → file.text ≠ .tooDeep) := by
  unfold fileHome
  split_ifs with hlink
  · simp [hlink]
  · simp only [Bool.not_eq_true] at hlink
    simp only [hlink,true_implies,← load_isOk,bind_eq_ok]
    constructor
    · rintro ⟨_,data,hdata,-⟩
      exact ⟨data,hdata⟩
    · rintro ⟨data,hdata⟩
      exact ⟨_,data,hdata,rfl⟩

lemma entryHome_isOk {entry : StateEntry} : (∃ home, entryHome D entry = .ok home) ↔
    (entry.isDir = true → validId entry.name = true → ∃ bridge, D.bridge entry.name = .ok bridge) := by
  unfold entryHome
  split_ifs with hentry
  · refine ⟨fun _ hdir hvalid => ?_,fun _ => ⟨_,rfl⟩⟩
    simp [hdir,hvalid] at hentry
  · simp only [not_or,not_not] at hentry
    simp only [hentry,true_implies,bind_eq_ok]
    constructor
    · rintro ⟨_,bridge,hbridge,-⟩
      exact ⟨bridge,hbridge⟩
    · rintro ⟨bridge,hbridge⟩
      exact ⟨_,bridge,hbridge,rfl⟩

/-- No file of the registry and no bridge raises an exception. -/
structure Readable (D : Disk) : Prop where
  files : ∀ file ∈ D.registry, file.symlink = false → file.text ≠ .tooDeep
  bridges : ∀ entry ∈ D.entries, entry.isDir = true → validId entry.name = true →
    ∃ bridge, D.bridge entry.name = .ok bridge

lemma knownHomes_isOk : (∃ known, knownHomes D = .ok known) ↔ Readable D := by
  have hfiles : (∃ homes, collect fileHome D.globbed = .ok homes) ↔
      ∀ file ∈ D.registry, file.symlink = false → file.text ≠ .tooDeep := by
    rw [collect_isOk]
    simp only [D.globbed_perm.mem_iff,fileHome_isOk]
  have hbridges : (∃ homes, collect (entryHome D) D.listed = .ok homes) ↔
      ∀ entry ∈ D.entries, entry.isDir = true → validId entry.name = true →
        ∃ bridge, D.bridge entry.name = .ok bridge := by
    rw [collect_isOk]
    simp only [D.listed_perm.mem_iff,entryHome_isOk]
  unfold knownHomes
  simp only [bind_eq_ok]
  constructor
  · rintro ⟨_,files,hf,bridges,hb,-⟩
    exact ⟨hfiles.mp ⟨files,hf⟩,hbridges.mp ⟨bridges,hb⟩⟩
  · intro h
    obtain ⟨files,hf⟩ := hfiles.mpr h.files
    obtain ⟨bridges,hb⟩ := hbridges.mpr h.bridges
    exact ⟨_,files,hf,bridges,hb,rfl⟩

lemma mem_scannedHomes {known : List Str} (h : knownHomes D = .ok known) {home : Str} :
    home ∈ scannedHomes D codexHomes known ↔ Scans D codexHomes home := by
  unfold knownHomes at h
  simp only [bind_eq_ok,Except.ok.injEq] at h
  obtain ⟨files,hf,bridges,hb,rfl⟩ := h
  rw [scannedHomes,List.mem_eraseDups]
  simp only [List.cons_append,List.mem_cons,List.mem_append,mem_collect hf,mem_collect hb,
    D.globbed_perm.mem_iff,D.listed_perm.mem_iff]
  rfl

namespace Readable
variable (hread : Readable D)
include hread

lemma bridge {thread : Str} (hvalid : validId thread = true) :
    ∃ bridge, D.bridge thread = .ok bridge := by
  by_cases hnone : D.bridge thread = .ok none
  · exact ⟨none,hnone⟩
  · obtain ⟨entry,hentry,rfl,hdir⟩ := D.bridge_entry thread hnone
    exact hread.bridges entry hentry hdir hvalid

/-- A name can be looked up with a home that is a text, and with any other where there is none. -/
lemma storedName_isOk {thread : Str} {home : Json} : (∃ name, storedName D thread home = .ok name) ↔
    (Stored D thread → ∃ p, home = .str p) := by
  have hpath : (∃ p, pathOf home = .ok p) ↔ ∃ p, home = .str p := by
    cases home <;> simp [pathOf]
  unfold storedName
  cases hfind : D.registry.find? (·.stem = thread) with
  | none =>
    refine ⟨fun _ ⟨file,hfile,hstem,_⟩ => ?_,fun _ => ⟨none,rfl⟩⟩
    have := List.find?_eq_none.mp hfind file hfile
    simp [hstem] at this
  | some file =>
    have hmem := List.mem_of_find?_eq_some hfind
    have hstem : file.stem = thread := by simpa using List.find?_some hfind
    -- no other file has the name
    have honly : ∀ other ∈ D.registry, other.stem = thread → other = file := fun other hother h =>
      List.inj_on_of_nodup_map D.registry_nodup hother hmem (h.trans hstem.symm)
    simp only
    split_ifs with hplain
    · refine ⟨fun _ ⟨other,hother,hname,hlink,hregular,_⟩ => ?_,fun _ => ⟨none,rfl⟩⟩
      rw [honly other hother hname] at hlink hregular
      simp [hlink,hregular] at hplain
    · simp only [not_or,Bool.not_eq_true,Bool.not_eq_false] at hplain
      have hdeep := hread.files file hmem hplain.1
      cases htext : file.text with
      | unreadable =>
        refine ⟨fun _ ⟨other,hother,hname,_,_,data,hdata,_⟩ => ?_,fun _ => ⟨none,rfl⟩⟩
        rw [honly other hother hname,htext] at hdata
        cases hdata
      | tooDeep => exact absurd htext hdeep
      | value data =>
        simp only [FileText.load,bind,Except.bind]
        by_cases hthread : strAt "thread" data = some thread
        · rw [if_neg (not_not.mpr hthread)]
          have hstored : Stored D thread := ⟨file,hmem,hstem,hplain.1,hplain.2,data,htext,hthread⟩
          simp only [hstored,true_implies,← hpath]
          cases pathOf home with
          | error exc => simp
          | ok p =>
            refine ⟨fun _ => ⟨p,rfl⟩,fun _ => ?_⟩
            simp only
            split_ifs <;> exact ⟨_,rfl⟩
        · rw [if_pos hthread]
          refine ⟨fun _ ⟨other,hother,hname,_,_,data',hdata,hthread'⟩ => ?_,fun _ => ⟨none,rfl⟩⟩
          rw [honly other hother hname,htext] at hdata
          cases hdata
          exact absurd hthread' hthread

end Readable

/-! The registrations. -/

lemma recordOf_eq_some {stem : Str} {data : Json} {record : SessionRecord}
    (h : recordOf D stem data = some record) : record.thread = stem ∧ validId record.thread = true := by
  unfold recordOf at h
  split at h
  · split_ifs at h with hvalid
    cases h
    exact ⟨hvalid.2.2.2.1.symm,hvalid.2.2.1⟩
  · cases h

lemma readRecord_eq_some {file : RegistryFile} {record : SessionRecord}
    (h : readRecord D file = .ok (some record)) :
    record.thread = file.stem ∧ validId record.thread = true := by
  unfold readRecord at h
  split_ifs at h
  · cases h
  · obtain ⟨data,-,h⟩ := bind_eq_ok.mp h
    obtain ⟨v,-,hv⟩ := Option.bind_eq_some_iff.mp (Except.ok.inj h)
    exact recordOf_eq_some hv

lemma registeredRow_eq_some {file : RegistryFile} {row : Session} :
    registeredRow D file = .ok (some row) ↔ ∃ record bridge, readRecord D file = .ok (some record) ∧
      record.alive D = true ∧ D.bridge record.thread = .ok bridge ∧ row = record.row bridge := by
  unfold registeredRow
  simp only [bind_eq_ok]
  constructor
  · rintro ⟨found,hread,h⟩
    cases found with
    | none => cases h
    | some record =>
      simp only [Bool.not_eq_true] at h
      split_ifs at h with halive
      · cases h
      · obtain ⟨bridge,hbridge,hrow⟩ := bind_eq_ok.mp h
        cases hrow
        exact ⟨record,bridge,hread,by simpa using halive,hbridge,rfl⟩
  · rintro ⟨record,bridge,hread,halive,hbridge,rfl⟩
    refine ⟨some record,hread,?_⟩
    simp only [halive,not_true_eq_false,if_false,hbridge,bind,Except.bind]

lemma registeredRow_isOk (hread : Readable D) {file : RegistryFile} (hfile : file ∈ D.registry) :
    ∃ row, registeredRow D file = .ok row := by
  have hrecord : ∃ record, readRecord D file = .ok record := by
    unfold readRecord
    split_ifs with hplain
    · exact ⟨none,rfl⟩
    · simp only [not_or,Bool.not_eq_true] at hplain
      obtain ⟨data,hdata⟩ := load_isOk.mpr (hread.files file hfile hplain.1)
      exact ⟨_,bind_eq_ok.mpr ⟨data,hdata,rfl⟩⟩
  obtain ⟨found,hfound⟩ := hrecord
  unfold registeredRow
  cases found with
  | none => exact ⟨none,bind_eq_ok.mpr ⟨none,hfound,rfl⟩⟩
  | some record =>
    by_cases halive : record.alive D = true
    · obtain ⟨bridge,hbridge⟩ := hread.bridge (readRecord_eq_some hfound).2
      exact ⟨_,registeredRow_eq_some.mpr ⟨record,bridge,hfound,halive,hbridge,rfl⟩⟩
    · exact ⟨none,bind_eq_ok.mpr ⟨some record,hfound,by simp [halive]⟩⟩

section
variable {registered : List Session} (hregistered : collect (registeredRow D) D.registry = .ok registered)
include hregistered

lemma mem_registered {row : Session} : row ∈ registered ↔ ∃ file ∈ D.registry, ∃ record bridge,
    readRecord D file = .ok (some record) ∧ record.alive D = true ∧
      D.bridge record.thread = .ok bridge ∧ row = record.row bridge := by
  rw [mem_collect hregistered]
  simp only [registeredRow_eq_some]

lemma registered_owner {row : Session} (h : row ∈ registered) : ∃ pid identity,
    Registers D row.thread pid identity ∧ row.ownerPid = .int pid ∧
      row.ownerIdentity = .str identity := by
  obtain ⟨file,hfile,record,bridge,hread,halive,-,rfl⟩ := (mem_registered hregistered).mp h
  obtain ⟨pid,hpid,hid⟩ := processIdentity_eq_some (of_decide_eq_true halive)
  exact ⟨pid,_,⟨file,hfile,record,hread,rfl,hpid,rfl,hid⟩,hpid,rfl⟩

/-- A live registration has its row. -/
lemma record_row {file : RegistryFile} (hfile : file ∈ D.registry) {record : SessionRecord}
    (hread : readRecord D file = .ok (some record)) (halive : record.alive D = true) :
    ∃ bridge, record.row bridge ∈ registered := by
  obtain ⟨found,hfound⟩ := collect_isOk.mp ⟨_,hregistered⟩ file hfile
  have hrow := hfound
  unfold registeredRow at hfound
  simp only [hread,bind,Except.bind,halive,not_true_eq_false,if_false] at hfound
  cases hbridge : D.bridge record.thread with
  | error exc =>
    rw [hbridge] at hfound
    cases hfound
  | ok bridge =>
    exact ⟨bridge,(mem_registered hregistered).mpr
      ⟨file,hfile,record,bridge,hread,halive,hbridge,rfl⟩⟩

lemma registers_row {thread : Str} {pid : Pid} {identity : Str}
    (h : Registers D thread pid identity) : ∃ row ∈ registered, row.thread = thread ∧
      row.ownerPid = .int pid ∧ row.ownerIdentity = .str identity := by
  obtain ⟨file,hfile,record,hread,rfl,hpid,rfl,hid⟩ := h
  have halive : record.alive D = true := by
    unfold SessionRecord.alive
    rw [hpid]
    exact decide_eq_true hid
  obtain ⟨bridge,hrow⟩ := record_row hregistered hfile hread halive
  exact ⟨_,hrow,rfl,hpid,rfl⟩

lemma registered_iff {thread : Str} : thread ∈ registered.map (·.thread) ↔
    ∃ pid identity, Registers D thread pid identity := by
  constructor
  · intro h
    obtain ⟨row,hrow,rfl⟩ := List.mem_map.mp h
    obtain ⟨pid,identity,hreg,-⟩ := registered_owner hregistered hrow
    exact ⟨pid,identity,hreg⟩
  · intro h
    obtain ⟨pid,identity,h⟩ := h
    obtain ⟨row,hrow,rfl,-⟩ := registers_row hregistered h
    exact List.mem_map_of_mem hrow

end

/-! The writer locks. -/

lemma lockRow_eq_some {home : Str} {file : LockFile} {row : Session}
    (h : lockRow D home file = .ok (some row)) : row.thread = file.thread ∧ row.updatedAt = .null ∧
      ∃ pid identity, Holds D file pid identity ∧ row.ownerPid = .int pid ∧
        row.ownerIdentity = .str identity ∧
        ∃ data, D.threadMeta home file.thread = .ok data ∧ data.isChild = false := by
  unfold lockRow at h
  split_ifs at h with hfile
  · cases h
  simp only [not_or,Bool.not_eq_true,Bool.not_eq_false] at hfile
  cases hholder : file.holder with
  | none => simp [hholder] at h
  | some holder =>
    cases hid : D.identity holder.pid with
    | none => simp [hholder,hid] at h
    | some identity =>
      simp only [hholder,hid] at h
      obtain ⟨data,hdata,h⟩ := bind_eq_ok.mp h
      split_ifs at h with hchild
      · cases h
      · obtain ⟨stored,-,h⟩ := bind_eq_ok.mp h
        obtain ⟨bridge,-,h⟩ := bind_eq_ok.mp h
        cases h
        exact ⟨rfl,rfl,holder.pid,identity,⟨hfile.1,hfile.2.1,hfile.2.2,⟨holder,hholder,rfl⟩,hid⟩,rfl,
          rfl,data,hdata,by simpa using hchild⟩

/-- What a lock file gives is its row, if it is held and its thread is no child. -/
lemma lockRow_holds (hread : Readable D) {home : Str} {file : LockFile} {pid : Pid} {identity : Str}
    (h : Holds D file pid identity) {data : ThreadMeta}
    (hdata : D.threadMeta home file.thread = .ok data) :
    ∃ found, lockRow D home file = .ok found ∧ (data.isChild = false → found.isSome = true) := by
  obtain ⟨hvalid,hlink,hregular,⟨holder,hholder,rfl⟩,hid⟩ := h
  obtain ⟨stored,hstored⟩ : ∃ name, storedName D file.thread (.str home) = .ok name :=
    hread.storedName_isOk.mpr fun _ => ⟨home,rfl⟩
  obtain ⟨bridge,hbridge⟩ := hread.bridge hvalid
  unfold lockRow
  rw [if_neg (by simp [hvalid,hlink,hregular])]
  simp only [hholder,hid,hdata,hstored,hbridge,bind,Except.bind]
  by_cases hchild : data.isChild = true
  · rw [if_pos hchild]
    exact ⟨none,rfl,by simp [hchild]⟩
  · rw [if_neg hchild]
    exact ⟨_,rfl,fun _ => rfl⟩

lemma lockRow_isOk (hread : Readable D) {home : Str} {file : LockFile} :
    (∃ found, lockRow D home file = .ok found) ↔ ∀ pid identity, Holds D file pid identity →
      ∃ data, D.threadMeta home file.thread = .ok data := by
  constructor
  · rintro ⟨found,h⟩ pid identity ⟨hvalid,hlink,hregular,⟨holder,hholder,rfl⟩,hid⟩
    unfold lockRow at h
    rw [if_neg (by simp [hvalid,hlink,hregular])] at h
    simp only [hholder,hid] at h
    obtain ⟨data,hdata,-⟩ := bind_eq_ok.mp h
    exact ⟨data,hdata⟩
  · intro h
    by_cases hholds : ∃ pid identity, Holds D file pid identity
    · obtain ⟨pid,identity,hholds⟩ := hholds
      obtain ⟨data,hdata⟩ := h pid identity hholds
      obtain ⟨found,hfound,-⟩ := lockRow_holds hread hholds hdata
      exact ⟨found,hfound⟩
    · refine ⟨none,?_⟩
      unfold lockRow
      split_ifs with hfile
      · rfl
      · simp only [not_or,Bool.not_eq_true,Bool.not_eq_false] at hfile
        cases hholder : file.holder with
        | none => rfl
        | some holder =>
          cases hid : D.identity holder.pid with
          | none => simp only [hid]
          | some identity =>
            exact absurd ⟨holder.pid,identity,hfile.1,hfile.2.1,hfile.2.2,⟨holder,hholder,rfl⟩,hid⟩
              hholds

lemma lockRows_isOk : (∃ locked, lockRows D codexHomes discover = .ok locked) ↔ Readable D ∧
    (discover = true → ∀ home, Scans D codexHomes home → ∀ file ∈ D.locks home,
      ∀ pid identity, Holds D file pid identity →
        ∃ data, D.threadMeta home file.thread = .ok data) := by
  have hhomes : ∀ known, knownHomes D = .ok known → Readable D →
      ((∃ rows, collectAll (discoverLockedThreads D) (scannedHomes D codexHomes known) = .ok rows) ↔
        ∀ home, Scans D codexHomes home → ∀ file ∈ D.locks home, ∀ pid identity,
          Holds D file pid identity → ∃ data, D.threadMeta home file.thread = .ok data) := by
    intro known hknown hread
    rw [collectAll_isOk]
    simp only [mem_scannedHomes hknown,discoverLockedThreads,collect_isOk,lockRow_isOk hread]
  constructor
  · rintro ⟨locked,h⟩
    obtain ⟨known,hknown,h⟩ := bind_eq_ok.mp h
    have hread := knownHomes_isOk.mp ⟨known,hknown⟩
    refine ⟨hread,fun hdiscover => ?_⟩
    rw [if_pos hdiscover] at h
    obtain ⟨rows,hrows,-⟩ := bind_eq_ok.mp h
    exact (hhomes known hknown hread).mp ⟨rows,hrows⟩
  · rintro ⟨hread,h⟩
    obtain ⟨known,hknown⟩ := knownHomes_isOk.mpr hread
    by_cases hdiscover : discover = true
    · obtain ⟨rows,hrows⟩ := (hhomes known hknown hread).mpr (h hdiscover)
      exact ⟨_,bind_eq_ok.mpr ⟨known,hknown,by
        rw [if_pos hdiscover]
        exact bind_eq_ok.mpr ⟨rows,hrows,rfl⟩⟩⟩
    · exact ⟨[],bind_eq_ok.mpr ⟨known,hknown,by rw [if_neg hdiscover]⟩⟩

section
variable {locked : List Session} (hlocked : lockRows D codexHomes discover = .ok locked)
include hlocked

/-- What the lock rows are: nothing, or the first row of each thread that has one. -/
lemma lockRows_cases : discover = false ∧ locked = [] ∨ discover = true ∧ ∃ rows,
    locked = addAll (·.thread) [] rows ∧ ∀ row, row ∈ rows ↔
      ∃ home, Scans D codexHomes home ∧ ∃ file ∈ D.locks home, lockRow D home file = .ok (some row) := by
  obtain ⟨known,hknown,h⟩ := bind_eq_ok.mp hlocked
  by_cases hdiscover : discover = true
  · rw [if_pos hdiscover] at h
    obtain ⟨rows,hrows,h⟩ := bind_eq_ok.mp h
    refine Or.inr ⟨hdiscover,rows,(Except.ok.inj h).symm,fun row => ?_⟩
    rw [mem_collectAll hrows]
    simp only [mem_scannedHomes hknown]
    constructor
    · rintro ⟨home,hhome,found,hfound,hrow⟩
      exact ⟨home,hhome,(mem_collect hfound).mp hrow⟩
    · rintro ⟨home,hhome,hrow⟩
      obtain ⟨found,hfound⟩ := collectAll_isOk.mp ⟨rows,hrows⟩ home ((mem_scannedHomes hknown).mpr hhome)
      exact ⟨home,hhome,found,hfound,(mem_collect hfound).mpr hrow⟩
  · rw [if_neg hdiscover] at h
    exact Or.inl ⟨by simpa using hdiscover,(Except.ok.inj h).symm⟩

lemma nodup_locked : (locked.map (·.thread)).Nodup := by
  obtain ⟨-,rfl⟩ | ⟨-,rows,rfl,-⟩ := lockRows_cases hlocked
  · exact List.nodup_nil
  · exact nodup_addAll List.nodup_nil

lemma locked_owner {row : Session} (h : row ∈ locked) : row.updatedAt = .null ∧ ∃ pid identity,
    Locks D codexHomes discover row.thread pid identity ∧ row.ownerPid = .int pid ∧
      row.ownerIdentity = .str identity := by
  obtain ⟨-,rfl⟩ | ⟨hdiscover,rows,rfl,hrows⟩ := lockRows_cases hlocked
  · cases h
  · obtain h | ⟨-,h⟩ := mem_addAll.mp h
    · cases h
    · obtain ⟨home,hhome,file,hfile,hrow⟩ := (hrows row).mp (List.mem_of_find?_eq_some h)
      obtain ⟨hthread,htime,pid,identity,hholds,hpid,hidentity,hmeta⟩ := lockRow_eq_some hrow
      rw [hthread]
      exact ⟨htime,pid,identity,⟨hdiscover,home,hhome,file,hfile,rfl,hholds,hmeta⟩,hpid,hidentity⟩

end

end PeerChat.Registry
