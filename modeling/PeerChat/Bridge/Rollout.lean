import PeerChat.Bridge.Lifecycle
import PeerChat.Python.JsonRoundTrip
import PeerChat.Python.Lines
import PeerChat.Relational.Latest

/-! The rollout behind the evidence of a turn's end: a bounded tail of the file is read, and the loop
over its records keeps the latest terminal one that nothing after it overrules. -/
namespace PeerChat
open Python Relational Wire

def TAIL_BYTES : ℕ := 256*1024

/-- `_stamp(info)`. -/
structure Stamp where
  dev : ℕ
  ino : ℕ
  size : ℕ
  mtimeNs : ℕ
  deriving DecidableEq

/-- The file at the path of a rollout, as one reading of it finds it. -/
structure Rollout where
  content : Bytes
  /-- `path.lstat()`. -/
  info : Stamp
  regular : Bool
  ownedByUser : Bool
  /-- `os.fstat` when the file is open, and when its tail has been read. -/
  opened : Stamp
  afterRead : Stamp
  /-- `path.stat()` at the end. -/
  ended : Stamp

/-- What the reading takes from Python besides `json.loads`. -/
structure Interpreter where
  /-- `datetime.fromisoformat`, none for its ValueError. The time itself is none where the text names
  no time zone. -/
  fromisoformat : Str → Option (Option Time)
  /-- The lines that `json.loads` gives up: they are nested too deep, for a RecursionError, or have an
  integer of too many digits, for a ValueError. -/
  recursionError : Bytes → Bool

/-- `value.replace('Z', '+00:00')`. -/
def zoned (value : Str) : Str :=
  value.flatMap fun c => if c = ofChar 'Z' then str "+00:00" else [c]

def isObject : Json → Bool
  | .obj _ => true
  | _ => false

/-- `record.get('payload')`. -/
def payloadOf (record : Json) : Json := (record.get (str "payload")).getD .null

/-- A line as the loop reads it: an object with an object payload. Any other line ends the loop
without evidence. -/
def readRecord (I : Interpreter) (line : Bytes) : Option Json :=
  if I.recursionError line then none
  else (Json.loads line).filter fun record => isObject record && isObject (payloadOf record)

/-- The event of an `event_msg`. -/
def eventOf (record : Json) : Option Str :=
  if strAt "type" record = some (str "event_msg") then strAt "type" (payloadOf record) else none

def isTerminal (record : Json) : Bool :=
  eventOf record = some (str "task_complete") || eventOf record = some (str "turn_aborted")

def isTokenCount (record : Json) : Bool := eventOf record = some (str "token_count")

/-- The loop over the lines, with `latest`. -/
def scanRecords (I : Interpreter) : Option Json → List Bytes → Option (Option Json)
  | latest, [] => some latest
  | latest, line::lines =>
    match readRecord I line with
    | none => none
    | some record => scanRecords I (latestStep isTerminal isTokenCount latest record) lines

/-- What has been read of a file of `size` bytes, without a partial first record. -/
def readTail (bound size : ℕ) (content : Bytes) : Option Bytes :=
  let offset := size-bound
  let raw := (content.drop offset).take bound
  if raw.getLast? ≠ some 10 then none
  else if offset ≠ 0 then some (afterNewline raw) else some raw

/-- `turn_end_evidence` from the `lstat` of the path on, but for the comparisons of the turn and the
time: those are made by `turnEndEvidence`. -/
def rolloutEnd (I : Interpreter) (bound : ℕ) (r : Rollout) : Option TerminalEvent :=
  if ¬ r.regular ∨ ¬ r.ownedByUser ∨ r.opened ≠ r.info ∨ r.afterRead ≠ r.info then none
  else match readTail bound r.info.size r.content with
    | none => none
    | some raw =>
      match scanRecords I none (splitLines raw) with
      | some (some latest) =>
        match (strAt "timestamp" latest).bind fun value => I.fromisoformat (zoned value) with
        | some (some time) =>
          if r.ended ≠ r.info then none
          else some ⟨eventOf latest = some (str "turn_aborted"),strAt "turn_id" (payloadOf latest),time⟩
        | _ => none
      | _ => none

/-- The machine whose rollouts are these files, read up to a bound. -/
def Machine.reading (m : Machine) (I : Interpreter) (bound : ℕ) (files : Str → Option Rollout) :
    Machine :=
  { m with latestEnd := fun home thread =>
      ((m.threadRow home thread).bind (·.rolloutPath)).bind fun path =>
        (files path).bind (rolloutEnd I bound) }

/-! What the reading is for. -/

/-- The owner and routing checks of `turn_end_evidence` pass for a hook of the turn and lead to this
path. -/
structure Trusted (m : Machine) (config : Config) (seen : HookSeen) (turn path : Str) : Prop where
  matched : seen.routing = .matched
  active : seen.event.active = true
  turn_eq : seen.turn = some turn
  turn_ne : turn ≠ []
  owner_eq : seen.ownerIdentity = some config.ownerIdentity
  owner_ne : config.ownerIdentity ≠ []
  alive : m.processIdentity config.ownerPid = some config.ownerIdentity
  path_eq : (m.threadRow config.codexHome config.thread).bind (·.rolloutPath) = some path
  path_ne : path ≠ []
  routed : routingRejection m
    { event := .other [], sessionId := config.thread, transcript := some path } config false = none

/-- The checks of the file pass: it is the user's own regular file, and it stays as `lstat` has found
it. -/
structure Rollout.Settled (r : Rollout) : Prop where
  regular : r.regular = true
  owned : r.ownedByUser = true
  size : r.info.size = r.content.length
  opened : r.opened = r.info
  afterRead : r.afterRead = r.info
  ended : r.ended = r.info

/-- The records of a file that its bounded reading gets to see: in a longer file, those after the
first newline of its last bytes. -/
def tailOf (content : Bytes) : Bytes :=
  if TAIL_BYTES < content.length then afterNewline (content.drop (content.length-TAIL_BYTES))
  else content

/-- Every line is an object with an object payload. -/
def Readable (I : Interpreter) (raw : Bytes) : Prop :=
  ∀ line ∈ splitLines raw, (readRecord I line).isSome = true

/-- The lines hold a terminal event of the turn, with a zoned timestamp between two times, and only
token counts after it. -/
def EndsTurn (I : Interpreter) (raw : Bytes) (turn : Str) (earliest now : Time) : Prop :=
  ∃ before latest after, (splitLines raw).mapM (readRecord I) = some (before ++ latest::after) ∧
    isTerminal latest = true ∧ strAt "turn_id" (payloadOf latest) = some turn ∧
    (∀ record ∈ after, isTokenCount record = true) ∧
    ∃ value time, strAt "timestamp" latest = some value ∧
      I.fromisoformat (zoned value) = some (some time) ∧ earliest ≤ time ∧ time ≤ now

/-- The terminal record that the loop selects, if it gets to its end. -/
def selected (I : Interpreter) (raw : Bytes) : Option Json :=
  (scanRecords I none (splitLines raw)).join

variable {I : Interpreter}

/-- A token count is not terminal: it overrules nothing. -/
lemma isTokenCount_not_terminal {record : Json} (h : isTokenCount record = true) :
    isTerminal record = false := by
  unfold isTokenCount at h
  unfold isTerminal
  rw [decide_eq_true_eq] at h
  rw [h]
  decide

/-- The loop gets to its end where it can read every line, and then it has folded the records. -/
lemma scanRecords_eq (latest : Option Json) (lines : List Bytes) :
    scanRecords I latest lines =
      (lines.mapM (readRecord I)).map (latestFrom isTerminal isTokenCount latest) := by
  induction lines generalizing latest with
  | nil => rfl
  | cons line lines ih =>
    rw [scanRecords,List.mapM_cons]
    cases readRecord I line with
    | none => rfl
    | some record =>
      simp only [ih]
      cases lines.mapM (readRecord I) with
      | none => rfl
      | some records => rfl

lemma readable_iff {lines : List Bytes} : (∀ line ∈ lines, (readRecord I line).isSome = true) ↔
    ∃ records, lines.mapM (readRecord I) = some records := by
  induction lines with
  | nil => exact ⟨fun _ => ⟨[],rfl⟩,fun _ line hline => absurd hline List.not_mem_nil⟩
  | cons line lines ih =>
    rw [List.forall_mem_cons,ih,List.mapM_cons]
    constructor
    · intro h
      obtain ⟨hline,records,hrecords⟩ := h
      obtain ⟨record,hrecord⟩ := Option.isSome_iff_exists.mp hline
      exact ⟨record::records,by rw [hrecord,hrecords]; rfl⟩
    · intro h
      obtain ⟨all,h⟩ := h
      cases hline : readRecord I line with
      | none =>
        rw [hline] at h
        cases h
      | some record =>
        cases hlines : lines.mapM (readRecord I) with
        | none =>
          rw [hline,hlines] at h
          cases h
        | some records => exact ⟨rfl,records,rfl⟩

/-- What the fold selects: the last terminal record, where only token counts come after it. -/
lemma latest_eq_some {records : List Json} {latest : Json} :
    latestFrom isTerminal isTokenCount none records = some latest ↔ ∃ before after,
      records = before ++ latest::after ∧ isTerminal latest = true ∧
        ∀ record ∈ after, isTokenCount record = true := by
  rw [latestFrom_eq_some]
  constructor
  · intro h
    obtain ⟨hnone,-⟩ | ⟨before,after,hrecords,hlatest,hafter⟩ := h
    · cases hnone
    · exact ⟨before,after,hrecords,hlatest,fun record hrecord => (hafter record hrecord).2⟩
  · intro h
    obtain ⟨before,after,hrecords,hlatest,hafter⟩ := h
    exact Or.inr ⟨before,after,hrecords,hlatest,fun record hrecord =>
      ⟨isTokenCount_not_terminal (hafter record hrecord),hafter record hrecord⟩⟩

lemma selected_eq_some {raw : Bytes} {latest : Json} : selected I raw = some latest ↔
    ∃ records, (splitLines raw).mapM (readRecord I) = some records ∧
      latestFrom isTerminal isTokenCount none records = some latest := by
  unfold selected
  rw [scanRecords_eq]
  cases (splitLines raw).mapM (readRecord I) with
  | none => simp
  | some records => simp

/-- The bounded reading returns the tail of a file that ends in a newline. -/
lemma readTail_eq (content : Bytes) : readTail TAIL_BYTES content.length content =
    if content.getLast? = some 10 then some (tailOf content) else none := by
  unfold readTail tailOf
  have hpos : 0 < TAIL_BYTES := by decide
  have htake : (content.drop (content.length-TAIL_BYTES)).take TAIL_BYTES =
      content.drop (content.length-TAIL_BYTES) := by
    apply List.take_of_length_le
    rw [List.length_drop]
    omega
  have hlast : (content.drop (content.length-TAIL_BYTES)).getLast? = content.getLast? := by
    rw [List.getLast?_drop]
    cases content with
    | nil => rfl
    | cons b content => rw [if_neg (by rw [List.length_cons]; omega)]
  simp only [htake,hlast]
  by_cases hnewline : content.getLast? = some 10
  · rw [if_neg (by simp [hnewline]),if_pos hnewline]
    by_cases hlong : TAIL_BYTES < content.length
    · rw [if_pos (by omega),if_pos hlong]
    · have hoffset : content.length-TAIL_BYTES = 0 := by omega
      rw [if_neg (by omega),if_neg hlong,hoffset,List.drop_zero]
  · rw [if_pos hnewline,if_neg hnewline]

/-- The terminal event that a settled file yields. -/
lemma rolloutEnd_eq_some {r : Rollout} (h : r.Settled) {ending : TerminalEvent} :
    rolloutEnd I TAIL_BYTES r = some ending ↔ r.content.getLast? = some 10 ∧
      ∃ latest, selected I (tailOf r.content) = some latest ∧
        ∃ value time, strAt "timestamp" latest = some value ∧
          I.fromisoformat (zoned value) = some (some time) ∧
          ending = ⟨eventOf latest = some (str "turn_aborted"),
            strAt "turn_id" (payloadOf latest),time⟩ := by
  unfold rolloutEnd selected
  rw [if_neg (by simp [h.regular,h.owned,h.opened,h.afterRead]),h.size,readTail_eq]
  by_cases hnewline : r.content.getLast? = some 10
  · rw [if_pos hnewline]
    simp only [hnewline,true_and]
    cases hscan : scanRecords I none (splitLines (tailOf r.content)) with
    | none => simp
    | some found =>
      cases found with
      | none => simp
      | some latest =>
        simp only [Option.join_some,Option.some.injEq,exists_eq_left']
        cases hvalue : strAt "timestamp" latest with
        | none => simp
        | some value =>
          simp only [Option.bind_some,Option.some.injEq,exists_and_left,exists_eq_left']
          cases htime : I.fromisoformat (zoned value) with
          | none => simp
          | some time =>
            cases time with
            | none => simp
            | some time =>
              simp only [h.ended,ne_eq,not_true_eq_false,if_false,Option.some.injEq,
                exists_eq_left']
              exact eq_comm
  · simp [hnewline]

variable {m : Machine} {config : Config} {seen : HookSeen} {turn path : Str}
  {files : Str → Option Rollout} {r : Rollout}

/-- Where the owner and the path are trusted, the evidence is a terminal event of the turn in its
time. -/
lemma turnEndEvidence_reading {bound : ℕ} (h : Trusted m config seen turn path)
    (hfile : files path = some r) {evidence : TurnEnd} :
    turnEndEvidence (m.reading I bound files) config seen = some evidence ↔
      ∃ ending, rolloutEnd I bound r = some ending ∧ ending.turn = some turn ∧
        seen.time ≤ ending.time ∧ ending.time ≤ m.now ∧
        evidence = ⟨ending.aborted,turn,ending.time,config.ownerIdentity,seen.time⟩ := by
  have hend : (m.reading I bound files).latestEnd config.codexHome config.thread =
      rolloutEnd I bound r := by
    unfold Machine.reading
    simp only [h.path_eq,Option.bind_some,hfile]
  have hrow : ((m.reading I bound files).threadRow config.codexHome config.thread).bind
      (·.rolloutPath) = some path := h.path_eq
  have hrouted : routingRejection (m.reading I bound files)
      { event := .other [], sessionId := config.thread, transcript := some path } config false =
        none := h.routed
  have halive : (m.reading I bound files).processIdentity config.ownerPid =
      some config.ownerIdentity := h.alive
  have hnow : (m.reading I bound files).now = m.now := rfl
  have htruthy : truthy (some path) = true := by
    simpa [truthy] using h.path_ne
  unfold turnEndEvidence
  rw [h.turn_eq,hend]
  cases rolloutEnd I bound r with
  | none => simp
  | some ending =>
    simp only [hrow,hrouted,halive,hnow,htruthy,h.matched,h.active,h.owner_eq,ne_eq,h.turn_ne,
      h.owner_ne,not_false_eq_true,true_and,Option.some.injEq,exists_eq_left']
    by_cases hall : ending.turn = some turn ∧ seen.time ≤ ending.time ∧ ending.time ≤ m.now
    · rw [if_pos hall]
      simp [hall,eq_comm]
    · rw [if_neg hall]
      simp only [reduceCtorEq,false_iff]
      exact fun hc => hall ⟨hc.1,hc.2.1,hc.2.2.1⟩

/-- The tail decides for the whole file: what comes before it is overruled. -/
lemma selected_whole {content : Bytes} {latest : Json} (hlong : TAIL_BYTES < content.length)
    (hnewline : content.getLast? = some 10) (hreadable : Readable I content)
    (h : selected I (tailOf content) = some latest) : selected I content = some latest := by
  have hmem : 10 ∈ content.drop (content.length-TAIL_BYTES) := by
    have hpos : 0 < TAIL_BYTES := by decide
    apply List.mem_of_getLast?
    rw [List.getLast?_drop,if_neg (by omega),hnewline]
  obtain ⟨p,hp⟩ := exists_afterNewline hmem
  have hcontent : content = (content.take (content.length-TAIL_BYTES) ++ p) ++ 10::tailOf content := by
    unfold tailOf
    rw [if_pos hlong,List.append_assoc,← hp,List.take_append_drop]
  obtain ⟨all,hall⟩ := readable_iff.mp hreadable
  obtain ⟨records,hrecords,hlatest⟩ := selected_eq_some.mp h
  refine selected_eq_some.mpr ⟨all,hall,?_⟩
  rw [hcontent,splitLines_append,List.mapM_append,hrecords] at hall
  cases hearlier : (splitLines (content.take (content.length-TAIL_BYTES) ++ p ++ [10])).mapM
      (readRecord I) with
  | none =>
    rw [hearlier] at hall
    cases hall
  | some earlier =>
    rw [hearlier] at hall
    obtain rfl : earlier ++ records = all := Option.some.inj hall
    rw [latestFrom_append]
    exact latestFrom_of_later hlatest

/-- Evidence is there exactly where the tail ends the turn. -/
lemma evidence_isSome_iff (ht : Trusted m config seen turn path) (hfile : files path = some r)
    (hsettled : r.Settled) :
    (turnEndEvidence (m.reading I TAIL_BYTES files) config seen).isSome = true ↔
      r.content.getLast? = some 10 ∧ Readable I (tailOf r.content) ∧
        EndsTurn I (tailOf r.content) turn seen.time m.now := by
  constructor
  · intro h
    obtain ⟨evidence,h⟩ := Option.isSome_iff_exists.mp h
    obtain ⟨ending,hend,hturn,hfrom,hto,-⟩ := (turnEndEvidence_reading ht hfile).mp h
    obtain ⟨hnewline,latest,hselected,value,time,hvalue,htime,rfl⟩ :=
      (rolloutEnd_eq_some hsettled).mp hend
    obtain ⟨records,hrecords,hlatest⟩ := selected_eq_some.mp hselected
    obtain ⟨before,after,rfl,hterminal,hafter⟩ := latest_eq_some.mp hlatest
    exact ⟨hnewline,readable_iff.mpr ⟨_,hrecords⟩,before,latest,after,hrecords,hterminal,hturn,
      hafter,value,time,hvalue,htime,hfrom,hto⟩
  · intro h
    obtain ⟨hnewline,-,before,latest,after,hrecords,hterminal,hturn,hafter,value,time,hvalue,htime,
      hfrom,hto⟩ := h
    have hselected : selected I (tailOf r.content) = some latest :=
      selected_eq_some.mpr ⟨_,hrecords,latest_eq_some.mpr ⟨before,after,rfl,hterminal,hafter⟩⟩
    have hend := (rolloutEnd_eq_some hsettled).mpr
      ⟨hnewline,latest,hselected,value,time,hvalue,htime,rfl⟩
    exact Option.isSome_iff_exists.mpr ⟨_,(turnEndEvidence_reading ht hfile).mpr
      ⟨_,hend,hturn,hfrom,hto,rfl⟩⟩

/-- Where the owner, routing and stamp checks pass, there is evidence exactly where the file ends in
a newline, all records of its tail are readable and the tail ends the turn; and then the records of
the whole file, where they are all readable, select the same terminal record. -/
theorem turn_end_exact (ht : Trusted m config seen turn path) (hfile : files path = some r)
    (hsettled : r.Settled) :
    ((turnEndEvidence (m.reading I TAIL_BYTES files) config seen).isSome = true ↔
      r.content.getLast? = some 10 ∧ Readable I (tailOf r.content) ∧
        EndsTurn I (tailOf r.content) turn seen.time m.now) ∧
    ((turnEndEvidence (m.reading I TAIL_BYTES files) config seen).isSome = true →
      TAIL_BYTES < r.content.length → Readable I r.content →
        ∃ latest, selected I (tailOf r.content) = some latest ∧
          selected I r.content = some latest) := by
  refine ⟨evidence_isSome_iff ht hfile hsettled,fun h hlong hreadable => ?_⟩
  obtain ⟨evidence,h⟩ := Option.isSome_iff_exists.mp h
  obtain ⟨ending,hend,-⟩ := (turnEndEvidence_reading ht hfile).mp h
  obtain ⟨hnewline,latest,hselected,-⟩ := (rolloutEnd_eq_some hsettled).mp hend
  exact ⟨latest,hselected,selected_whole hlong hnewline hreadable hselected⟩

/-! A rollout that ends with the end of the hook's turn. -/

def rolloutMachine : Machine := { Machine.bare with
  now := 1767225700
  processIdentity := fun pid => if pid = 7 then some (str "7:1") else none
  threadRow := fun _ _ => some {
    sandboxPolicy := []
    approvalMode := []
    archived := false
    rolloutPath := some (str "/r") } }

def rolloutConfig : Config where
  thread := str "t"
  socket := str "/run/own.sock"
  codexHome := str "/home/u/.codex"
  ownerPid := 7
  ownerIdentity := str "7:1"

def rolloutSeen : HookSeen := ⟨1767225590,.postToolUse,some (str "t1"),.matched,some (str "7:1")⟩

/-- The one timestamp of the file, read. -/
def rolloutInterpreter : Interpreter where
  fromisoformat value :=
    if value = str "2026-01-01T00:00:00+00:00" then some (some 1767225600) else none
  recursionError _ := false

def endedRecord : Json := .obj [(str "timestamp",.str (str "2026-01-01T00:00:00Z")),
  (str "type",.str (str "event_msg")),
  (str "payload",.obj [(str "type",.str (str "task_complete")),(str "turn_id",.str (str "t1"))])]

def endedLine : Bytes := (Utf8.encode (Json.dumps endedRecord)).getD []

/-- A file that is not touched while it is read. -/
def Rollout.still (content : Bytes) : Rollout :=
  ⟨content,⟨1,2,content.length,3⟩,true,true,⟨1,2,content.length,3⟩,⟨1,2,content.length,3⟩,
    ⟨1,2,content.length,3⟩⟩

lemma Rollout.still_settled (content : Bytes) : (Rollout.still content).Settled :=
  ⟨rfl,rfl,rfl,rfl,rfl,rfl⟩

lemma rollout_trusted :
    Trusted rolloutMachine rolloutConfig rolloutSeen (str "t1") (str "/r") where
  matched := rfl
  active := rfl
  turn_eq := rfl
  turn_ne := by decide
  owner_eq := rfl
  owner_ne := by decide
  alive := rfl
  path_eq := rfl
  path_ne := by decide
  routed := by decide +kernel

/-- The record may be followed by spaces. -/
lemma readRecord_padded (n : ℕ) :
    readRecord rolloutInterpreter (endedLine ++ List.replicate n 32) = some endedRecord := by
  have hscalar : (Json.dumps endedRecord).any isSurrogate = false := by decide +kernel
  have hencode : Utf8.encode (Json.dumps endedRecord ++ List.replicate n (Json.chr 32)) =
      some (endedLine ++ List.replicate n 32) := by
    have hspaces : (List.replicate n (Json.chr 32)).any isSurrogate = false := by
      rw [List.any_replicate]
      split_ifs
      · rfl
      · decide
    have hflat : (List.replicate n (Json.chr 32)).flatMap Utf8.encodeChar = List.replicate n 32 := by
      rw [List.flatMap_replicate]
      exact List.flatten_replicate_singleton
    unfold endedLine
    simp only [Utf8.encode,List.any_append,hscalar,hspaces,List.flatMap_append,hflat,Bool.or_self,
      Bool.false_eq_true,if_false,Option.getD_some]
  have hload : Json.loads (endedLine ++ List.replicate n 32) = some endedRecord := by
    rw [Json.loads_encode hencode (a := Json.chr 123) (b := Json.quote) rfl (by decide) (by decide)]
    exact Json.loadsStr_dumps_append endedRecord rfl n
  rw [readRecord,hload]
  rfl

lemma readRecord_ended : readRecord rolloutInterpreter endedLine = some endedRecord := by
  simpa using readRecord_padded 0

lemma splitLines_ended : splitLines (endedLine ++ [10]) = [endedLine] :=
  splitLines_line (by decide +kernel) (by decide +kernel) []

lemma mapM_ended : (splitLines (endedLine ++ [10])).mapM (readRecord rolloutInterpreter) =
    some [endedRecord] := by
  rw [splitLines_ended,List.mapM_cons,readRecord_ended]
  rfl

lemma ended_endsTurn : Readable rolloutInterpreter (endedLine ++ [10]) ∧
    EndsTurn rolloutInterpreter (endedLine ++ [10]) (str "t1") rolloutSeen.time
      rolloutMachine.now := by
  refine ⟨readable_iff.mpr ⟨_,mapM_ended⟩,[],endedRecord,[],mapM_ended,by decide +kernel,
    by decide +kernel,fun record h => absurd h List.not_mem_nil,str "2026-01-01T00:00:00Z",
    1767225600,by decide +kernel,by decide +kernel,by decide,by decide⟩

lemma afterNewline_spaces (k : ℕ) (rest : Bytes) :
    afterNewline (List.replicate k 32 ++ 10::rest) = rest := by
  induction k with
  | zero => rfl
  | succ k ih => exact ih

/-- The cut falls into the long line, and that line is dropped. -/
lemma tailOf_padded (start rest : Bytes) (h : rest.length < TAIL_BYTES) :
    tailOf (start ++ List.replicate TAIL_BYTES 32 ++ 10::rest) = rest := by
  have hlen : (start ++ List.replicate TAIL_BYTES 32 ++ 10::rest).length =
      start.length+TAIL_BYTES+(rest.length+1) := by
    rw [List.length_append,List.length_append,List.length_replicate,List.length_cons]
  unfold tailOf
  rw [if_pos (by omega),hlen,List.append_assoc,List.drop_append]
  have hdrop : start.length+TAIL_BYTES+(rest.length+1)-TAIL_BYTES-start.length = rest.length+1 := by
    omega
  rw [hdrop,List.drop_eq_nil_of_le (by omega),List.nil_append,List.drop_append,List.drop_replicate,
    List.length_replicate]
  have hzero : rest.length+1-TAIL_BYTES = 0 := by omega
  rw [hzero,List.drop_zero]
  exact afterNewline_spaces _ _

/-- The record, and spaces up to the length of the tail, and the record again. -/
def endedTwice : Bytes := endedLine ++ List.replicate TAIL_BYTES 32 ++ 10::(endedLine ++ [10])

lemma endedTwice_long : TAIL_BYTES < endedTwice.length := by
  unfold endedTwice
  rw [List.length_append,List.length_append,List.length_replicate,List.length_cons]
  omega

lemma endedTwice_readable : Readable rolloutInterpreter endedTwice := by
  have hpadded : 10 ∉ endedLine ++ List.replicate TAIL_BYTES 32 ∧
      13 ∉ endedLine ++ List.replicate TAIL_BYTES 32 := by
    have hline : 10 ∉ endedLine ∧ 13 ∉ endedLine := by decide +kernel
    simp [hline]
  unfold Readable endedTwice
  rw [splitLines_line hpadded.1 hpadded.2,splitLines_ended]
  simp only [List.forall_mem_cons,readRecord_padded,readRecord_ended,Option.isSome_some,true_and]
  exact fun line h => absurd h List.not_mem_nil

theorem turn_end_exact_ended :
    (turnEndEvidence (rolloutMachine.reading rolloutInterpreter TAIL_BYTES fun _ =>
      some (.still endedTwice)) rolloutConfig rolloutSeen).isSome = true ∧
    ∃ latest, selected rolloutInterpreter (tailOf endedTwice) = some latest ∧
      selected rolloutInterpreter endedTwice = some latest := by
  have htail : tailOf endedTwice = endedLine ++ [10] := tailOf_padded _ _ (by decide +kernel)
  have hexact := @turn_end_exact rolloutInterpreter _ _ _ _ _ (fun _ => some (.still endedTwice)) _
    rollout_trusted rfl (Rollout.still_settled _)
  have hsome := hexact.1.mpr ⟨?_,?_⟩
  · exact ⟨hsome,hexact.2 hsome endedTwice_long endedTwice_readable⟩
  · change endedTwice.getLast? = some 10
    unfold endedTwice
    rw [List.append_cons,← List.append_assoc]
    exact List.getLast?_concat
  · change Readable _ (tailOf endedTwice) ∧ EndsTurn _ (tailOf endedTwice) _ _ _
    rw [htail]
    exact ended_endsTurn

/-! The same end after a line that is not JSON, far before the tail. -/

/-- A line of spaces that is as long as the tail comes in between. -/
def brokenStart : Bytes := [120,10] ++ List.replicate TAIL_BYTES 32 ++ 10::(endedLine ++ [10])

lemma selected_brokenStart : selected rolloutInterpreter brokenStart = none := by
  have hlines : splitLines brokenStart =
      [120]::splitLines (List.replicate TAIL_BYTES 32 ++ 10::(endedLine ++ [10])) := by
    unfold brokenStart
    rw [List.append_assoc]
    exact @splitLines_line [120] (by decide) (by decide) _
  have hread : readRecord rolloutInterpreter [120] = none := by decide +kernel
  unfold selected
  rw [hlines,scanRecords,hread]
  rfl

/-- The bounded reading finds evidence where the loop over the whole file ends without any. -/
theorem whole_file_selects_nothing : ¬ ∀ (I : Interpreter) (m : Machine) (config : Config)
    (seen : HookSeen) (turn path : Str) (files : Str → Option Rollout) (r : Rollout),
    Trusted m config seen turn path → files path = some r → r.Settled →
    (turnEndEvidence (m.reading I TAIL_BYTES files) config seen).isSome = true →
    TAIL_BYTES < r.content.length →
    ∃ latest, selected I (tailOf r.content) = some latest ∧ selected I r.content = some latest := by
  intro h
  have hlast : brokenStart.getLast? = some 10 := by
    unfold brokenStart
    rw [List.append_cons,← List.append_assoc]
    exact List.getLast?_concat
  have htail : tailOf brokenStart = endedLine ++ [10] := tailOf_padded _ _ (by decide +kernel)
  have hlong : TAIL_BYTES < brokenStart.length := by
    unfold brokenStart
    rw [List.length_append,List.length_append,List.length_replicate]
    change TAIL_BYTES < 2+TAIL_BYTES+_
    omega
  have hsome : (turnEndEvidence (rolloutMachine.reading rolloutInterpreter TAIL_BYTES fun _ =>
      some (.still brokenStart)) rolloutConfig rolloutSeen).isSome = true := by
    refine (evidence_isSome_iff rollout_trusted rfl (Rollout.still_settled _)).mpr ⟨hlast,?_⟩
    change Readable _ (tailOf brokenStart) ∧ EndsTurn _ (tailOf brokenStart) _ _ _
    rw [htail]
    exact ended_endsTurn
  obtain ⟨latest,-,hwhole⟩ := h rolloutInterpreter rolloutMachine rolloutConfig rolloutSeen
    (str "t1") (str "/r") _ (.still brokenStart) rollout_trusted rfl (Rollout.still_settled _) hsome
    hlong
  cases selected_brokenStart.symm.trans hwhole

end PeerChat
