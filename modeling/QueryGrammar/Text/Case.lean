import QueryGrammar.Text.Blank
import QueryGrammar.Text.CaseTable

namespace QueryGrammar.Text

/-! Lower case, by the default conversion of whole texts.

Characters convert one by one, except for the capital sigma, which has a form of its own at the
end of a word: after a cased letter and with none following, where case-ignorable characters in
between do not count.
-/

def lowerRun? (c : Char) : Option CaseRun :=
  lowerRuns.find? fun run =>
    run.low ≤ c.toNat && c.toNat ≤ run.high && (c.toNat - run.low) % run.step == 0

/-- The lower case of one character, out of context. -/
def lowerChar (c : Char) : List Char :=
  if c.toNat < 0x80 then [c.toLower]
  else if c = '\u0130' then ['i', '\u0307']
  else match lowerRun? c with
    | some run => [Char.ofNat (run.target + (c.toNat - run.low))]
    | none => [c]

/-- Whether the nearest character that is not ignored is cased. -/
def meetsCased (text : List Char) : Bool :=
  match text.dropWhile caseIgnorableRanges.contains with
  | [] => false
  | c :: _ => casedRanges.contains c

/-- The lower case of what follows `before`, which is given last character first. -/
def lowerAfter (before : List Char) : List Char → List Char
  | [] => []
  | c :: rest =>
      let lowered :=
        if c = 'Σ' then
          if meetsCased before && !meetsCased rest then ['ς'] else ['σ']
        else lowerChar c
      lowered ++ lowerAfter (c :: before) rest

def lower (text : String) : String :=
  String.ofList (lowerAfter [] text.toList)

/-- Lower-cased words with one space between them: the form in which words are compared. -/
def normalize (text : String) : String :=
  String.intercalate " " ((words text.toList).map fun word => String.ofList (lowerAfter [] word))

end QueryGrammar.Text
