import Dialect.Text.CaseTable

/-!
# Upper and lower case

Full Unicode case conversion: a character may become several (`ß` is `SS` in upper case), and a
capital sigma becomes its final form at the end of a word. Names of fields are compared in lower
case, names of messages are hashed in upper case.
-/

namespace Dialect.Text

/-- The code point `n` lies on the run. -/
def CaseRun.covers (r : CaseRun) (n : Nat) : Bool :=
  r.first ≤ n && n ≤ r.last && (n - r.first) % r.stride == 0

/-- The image of a character under a case mapping given by its runs and its expansions. -/
def mapCase (runs : List CaseRun) (expansions : List (Nat × List Nat)) (c : Char) : List Char :=
  match runs.find? (·.covers c.toNat) with
  | some r => [Char.ofNat ((c.toNat : Int) + r.shift).toNat]
  | none =>
    match expansions.lookup c.toNat with
    | some image => image.map Char.ofNat
    | none => [c]

/-- The character in lower case, out of context. -/
def lowerChar (c : Char) : List Char :=
  if c.toNat < 0x80 then [c.toLower]
  else mapCase CaseTable.lowerRuns CaseTable.lowerExpansions c

/-- The character in upper case. -/
def upperChar (c : Char) : List Char :=
  if c.toNat < 0x80 then [c.toUpper]
  else mapCase CaseTable.upperRuns CaseTable.upperExpansions c

/-- Membership in a list of inclusive ranges of code points. -/
def inRanges (ranges : List (Nat × Nat)) (c : Char) : Bool :=
  ranges.any fun r => r.1 ≤ c.toNat && c.toNat ≤ r.2

/-- The character has a case. -/
def isCased (c : Char) : Bool := inRanges CaseTable.cased c

/-- The character is passed over when the surroundings of a sigma are examined. -/
def isCaseIgnorable (c : Char) : Bool := inRanges CaseTable.caseIgnorable c

/-- The first character that is not case-ignorable exists and has a case. -/
def casedAhead (s : List Char) : Bool :=
  match s.dropWhile isCaseIgnorable with
  | [] => false
  | c :: _ => isCased c

/-- Capital sigma. -/
def sigma : Char := 'Σ'

/-- A sigma is final when a cased character stands before it and none after it, case-ignorable
characters left out of account. `before` is the text before it, last character first. -/
def lowerSigma (before after : List Char) : Char :=
  if casedAhead before && !casedAhead after then 'ς' else 'σ'

/-- Lower case of the rest of a text of which `before` (last character first) has been passed. -/
def lowerFrom (before : List Char) : List Char → List Char
  | [] => []
  | c :: rest =>
    (if c = sigma then [lowerSigma before rest] else lowerChar c) ++ lowerFrom (c :: before) rest

/-- The text in lower case. -/
def lower (s : String) : String := String.ofList (lowerFrom [] s.toList)

/-- The text in upper case. -/
def upper (s : String) : String := String.ofList (s.toList.flatMap upperChar)

end Dialect.Text
