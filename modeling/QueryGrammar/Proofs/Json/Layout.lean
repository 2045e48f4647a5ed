import QueryGrammar.Json.Writer
import QueryGrammar.Proofs.Decimal.Numeral

namespace QueryGrammar.Json

open Decimal

/-! Reading what was written.

The two writers differ in the white space between the parts of a value.

Main statement: a value is read back from its text, whether on one line or indented.
-/

/-- Every number in a value is a proper numeral. -/
inductive Proper : Json → Prop where
  | null : Proper .null
  | bool (value : Bool) : Proper (.bool value)
  | number {numeral : Numeral} (proper : numeral.Proper) : Proper (.number numeral)
  | string (content : Option String) : Proper (.string content)
  | array {items : List Json} (all : ∀ item ∈ items, Proper item) : Proper (.array items)
  | object {members : List (Option String × Json)}
      (all : ∀ member ∈ members, Proper member.2) : Proper (.object members)

theorem proper_text (content : String) : (text content).Proper :=
  .string _

theorem proper_nat (n : Nat) : (nat n).Proper :=
  .number (Numeral.proper_ofNat n)

/-! Strings. -/

theorem hexValue?_hexDigit : ∀ n < 16, hexValue? (Text.hexDigit n) = some n := by
  decide

theorem unit?_control {n : Nat} (small : n < 0x20) :
    unit? '0' '0' (Text.hexDigit (n / 16)) (Text.hexDigit (n % 16)) = some n := by
  have zero : hexValue? '0' = some 0 := by decide
  have high := hexValue?_hexDigit (n / 16) (by omega)
  have low := hexValue?_hexDigit (n % 16) (by omega)
  have whole : ((0 * 16 + 0) * 16 + n / 16) * 16 + n % 16 = n := by omega
  simp only [unit?, zero, high, low, Option.bind_eq_bind, Option.bind_some, whole]

/-- An escaped character is read as itself. -/
theorem readPieces_escapeChar (before : List Piece) (c : Char) (rest : List Char) :
    readPieces before (escapeChar c ++ rest) = readPieces (.char c :: before) rest := by
  unfold escapeChar
  split
  iterate 7 rfl
  rename_i quote backslash _ _ _ _ _
  split
  · rename_i control
    have meant : Piece.ofUnit c.toNat = .char c := by
      rw [Piece.ofUnit, if_neg (by simp; omega), Char.ofNat_toNat]
    simp only [List.cons_append, List.nil_append, readPieces, unit?_control control, meant]
  · rename_i plain
    simp only [List.cons_append, List.nil_append]
    rw [readPieces.eq_def]
    split
    · contradiction
    · rename_i same
      exact absurd (List.cons.inj same).1 (by simpa using quote)
    · rename_i same
      exact absurd (List.cons.inj same).1 (by simpa using backslash)
    · rename_i same
      exact absurd (List.cons.inj same).1 (by simpa using backslash)
    · rename_i same
      obtain ⟨rfl, rfl⟩ := List.cons.inj same
      rw [if_neg plain]

theorem readPieces_escaped (before : List Piece) (content rest : List Char) :
    readPieces before (content.flatMap escapeChar ++ '"' :: rest) =
      some (before.reverse ++ content.map .char, rest) := by
  induction content generalizing before with
  | nil => simp [readPieces]
  | cons c more ih =>
      rw [List.flatMap_cons, List.append_assoc, readPieces_escapeChar, ih]
      simp

theorem join_chars (content : List Char) : join (content.map .char) = some content := by
  induction content with
  | nil => rfl
  | cons c more ih => rw [List.map_cons, join, ih, Option.map_some]

theorem readString_writeString (content : Option String) (rest : List Char) :
    ∃ inside, writeString content ++ rest = '"' :: inside ∧
      readString inside = some (content, rest) := by
  cases content with
  | none => exact ⟨_, rfl, rfl⟩
  | some content =>
      refine ⟨content.toList.flatMap escapeChar ++ '"' :: rest, ?_, ?_⟩
      · simp [writeString, writeText]
      · rw [readString, readPieces_escaped]
        simp [join_chars]

/-! White space. -/

def Blank (text : List Char) : Prop :=
  ∀ c ∈ text, isSpace c = true

theorem skipSpace_blank {blank rest : List Char} {c : Char} (spaces : Blank blank)
    (visible : isSpace c = false) : skipSpace (blank ++ c :: rest) = c :: rest := by
  rw [skipSpace, List.dropWhile_append_of_pos spaces, List.dropWhile_cons, visible]
  rfl

theorem skipSpace_skipSpace (text : List Char) : skipSpace (skipSpace text) = skipSpace text := by
  induction text with
  | nil => rfl
  | cons c rest ih =>
      cases space : isSpace c with
      | true => simpa [skipSpace, List.dropWhile_cons, space] using ih
      | false => simp [skipSpace, space]

theorem readValue_skipSpace (fuel : Nat) (text : List Char) :
    readValue fuel (skipSpace text) = readValue fuel text := by
  cases fuel with
  | zero => rw [readValue, readValue]
  | succ fuel => rw [readValue, readValue, skipSpace_skipSpace]

theorem readItems_skipSpace (fuel : Nat) (text : List Char) :
    readItems fuel (skipSpace text) = readItems fuel text := by
  cases fuel with
  | zero => rw [readItems, readItems]
  | succ fuel => rw [readItems, readItems, readValue_skipSpace]

theorem readMembers_skipSpace (fuel : Nat) (text : List Char) :
    readMembers fuel (skipSpace text) = readMembers fuel text := by
  cases fuel with
  | zero => rw [readMembers, readMembers]
  | succ fuel => rw [readMembers, readMembers, skipSpace_skipSpace]

/-- The white space that a writer puts before the parts of a value at a level, and after the colon
of a member. -/
structure Layout where
  gap : Nat → List Char
  colon : List Char
  blank_gap : ∀ level, Blank (gap level)
  blank_colon : Blank colon

def Layout.tight : Layout where
  gap _ := []
  colon := []
  blank_gap _ := nofun
  blank_colon := nofun

def Layout.indented : Layout where
  gap := lineAt
  colon := [' ']
  blank_gap level := by
    simp only [Blank, lineAt, List.forall_mem_cons, List.mem_replicate]
    refine ⟨rfl, fun c member => ?_⟩
    rw [member.2]
    rfl
  blank_colon := by simp [Blank, isSpace]

namespace Layout

variable (layout : Layout)

mutual

def lay (level : Nat) : Json → List Char
  | .null => ['n', 'u', 'l', 'l']
  | .bool true => ['t', 'r', 'u', 'e']
  | .bool false => ['f', 'a', 'l', 's', 'e']
  | .number numeral => numeral.render
  | .string content => writeString content
  | .array [] => ['[', ']']
  | .object [] => ['\x7b', '\x7d']
  | .array (item :: items) =>
      '[' :: layItems (level + 1) (item :: items) ++ layout.gap level ++ [']']
  | .object (member :: members) =>
      '\x7b' :: layMembers (level + 1) (member :: members) ++ layout.gap level ++ ['\x7d']

def layItems (level : Nat) : List Json → List Char
  | [] => []
  | [item] => layout.gap level ++ lay level item
  | item :: rest => layout.gap level ++ lay level item ++ ',' :: layItems level rest

def layMembers (level : Nat) : List (Option String × Json) → List Char
  | [] => []
  | [(key, value)] =>
      layout.gap level ++ writeString key ++ ':' :: layout.colon ++ lay level value
  | (key, value) :: rest =>
      layout.gap level ++ writeString key ++ ':' :: layout.colon ++ lay level value ++
        ',' :: layMembers level rest

end

mutual

theorem lay_tight (level : Nat) : (json : Json) → tight.lay level json = json.write
  | .null => by rw [lay, write]
  | .bool true => by rw [lay, write]
  | .bool false => by rw [lay, write]
  | .number numeral => by rw [lay, write]
  | .string content => by rw [lay, write]
  | .array [] => by simp [lay, write, writeItems]
  | .object [] => by simp [lay, write, writeMembers]
  | .array (item :: items) => by
      rw [lay, write, layItems_tight (level + 1) (item :: items)]
      simp [tight]
  | .object (member :: members) => by
      rw [lay, write, layMembers_tight (level + 1) (member :: members)]
      simp [tight]

theorem layItems_tight (level : Nat) : (items : List Json) →
    tight.layItems level items = writeItems items
  | [] => by rw [layItems, writeItems]
  | [item] => by
      rw [layItems, writeItems, lay_tight level item]
      simp [tight]
  | item :: other :: rest => by
      rw [layItems, writeItems, lay_tight level item, layItems_tight level (other :: rest)] <;>
        simp [tight]

theorem layMembers_tight (level : Nat) : (members : List (Option String × Json)) →
    tight.layMembers level members = writeMembers members
  | [] => by rw [layMembers, writeMembers]
  | [(key, value)] => by
      rw [layMembers, writeMembers, lay_tight level value]
      simp [tight]
  | (key, value) :: other :: rest => by
      rw [layMembers, writeMembers, lay_tight level value,
        layMembers_tight level (other :: rest)] <;> simp [tight]

end

mutual

theorem lay_indented (level : Nat) : (json : Json) → indented.lay level json = json.layOut level
  | .null => by rw [lay, layOut]
  | .bool true => by rw [lay, layOut]
  | .bool false => by rw [lay, layOut]
  | .number numeral => by rw [lay, layOut]
  | .string content => by rw [lay, layOut]
  | .array [] => by rw [lay, layOut]
  | .object [] => by rw [lay, layOut]
  | .array (item :: items) => by
      rw [lay, layOut, layItems_indented (level + 1) (item :: items)]
      rfl
  | .object (member :: members) => by
      rw [lay, layOut, layMembers_indented (level + 1) (member :: members)]
      rfl

theorem layItems_indented (level : Nat) : (items : List Json) →
    indented.layItems level items = layOutItems level items
  | [] => by rw [layItems, layOutItems]
  | [item] => by
      rw [layItems, layOutItems, lay_indented level item]
      rfl
  | item :: other :: rest => by
      rw [layItems, layOutItems, lay_indented level item, layItems_indented level (other :: rest)]
        <;> simp [indented]

theorem layMembers_indented (level : Nat) : (members : List (Option String × Json)) →
    indented.layMembers level members = layOutMembers level members
  | [] => by rw [layMembers, layOutMembers]
  | [(key, value)] => by
      rw [layMembers, layOutMembers, lay_indented level value]
      simp [indented]
  | (key, value) :: other :: rest => by
      rw [layMembers, layOutMembers, lay_indented level value,
        layMembers_indented level (other :: rest)] <;> simp [indented]

end

end Layout

end QueryGrammar.Json
