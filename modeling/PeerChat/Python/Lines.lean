import PeerChat.Python.Utf8

/-! `bytes.splitlines()`, and what is left of bytes after their first newline. -/
namespace Python

/-- `splitlines` with the line that is being read. The flag says that a carriage return has just
ended a line, so that a newline belongs to it. -/
def linesFrom (cr : Bool) (line : Bytes) : Bytes → List Bytes
  | [] => if line = [] then [] else [line]
  | b::rest =>
    if b = 10 then
      if cr then linesFrom false [] rest else line::linesFrom false [] rest
    else if b = 13 then line::linesFrom true [] rest
    else linesFrom false (line ++ [b]) rest

/-- `raw.splitlines()`. -/
def splitLines (raw : Bytes) : List Bytes := linesFrom false [] raw

/-- `raw.partition(b'\n')[2]`. -/
def afterNewline (raw : Bytes) : Bytes := (raw.dropWhile (· ≠ 10)).drop 1

/-- A newline ends a line, whatever comes before it. -/
lemma linesFrom_append (cr : Bool) (line p q : Bytes) :
    linesFrom cr line (p ++ 10::q) = linesFrom cr line (p ++ [10]) ++ splitLines q := by
  induction p generalizing cr line with
  | nil =>
    cases cr
    · simp [linesFrom,splitLines]
    · simp [linesFrom,splitLines]
  | cons b p ih =>
    simp only [List.cons_append,linesFrom]
    by_cases hn : b = 10
    · rw [if_pos hn,if_pos hn]
      cases cr
      · simp [ih]
      · simp [ih]
    · rw [if_neg hn,if_neg hn]
      by_cases hr : b = 13
      · rw [if_pos hr,if_pos hr,ih,List.cons_append]
      · rw [if_neg hr,if_neg hr,ih]

lemma splitLines_append (p q : Bytes) :
    splitLines (p ++ 10::q) = splitLines (p ++ [10]) ++ splitLines q := linesFrom_append ..

/-- A line without an end of its own, and the newline after it. -/
lemma splitLines_line {line : Bytes} (hn : 10 ∉ line) (hr : 13 ∉ line) (rest : Bytes) :
    splitLines (line ++ 10::rest) = line::splitLines rest := by
  have hread : ∀ part : Bytes, linesFrom false part (line ++ 10::rest) =
      (part ++ line)::splitLines rest := by
    induction line with
    | nil =>
      intro part
      simp [linesFrom,splitLines]
    | cons b line ih =>
      intro part
      rw [List.mem_cons,not_or] at hn hr
      rw [List.cons_append,linesFrom,if_neg (Ne.symm hn.1),if_neg (Ne.symm hr.1),ih hn.2 hr.2]
      simp
  exact hread []

/-- What is read again after a cut at a newline is the end of what was there before it. -/
lemma exists_afterNewline {raw : Bytes} (h : 10 ∈ raw) :
    ∃ p, raw = p ++ 10::afterNewline raw := by
  induction raw with
  | nil => cases h
  | cons b raw ih =>
    by_cases hb : b = 10
    · exact ⟨[],by simp [afterNewline,hb]⟩
    · obtain ⟨p,hp⟩ := ih (by simpa [Ne.symm hb] using h)
      refine ⟨b::p,?_⟩
      have : afterNewline (b::raw) = afterNewline raw := by simp [afterNewline,hb]
      rw [this,List.cons_append,← hp]

end Python
