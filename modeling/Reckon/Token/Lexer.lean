import Reckon.Token
import Reckon.Text.Quoted

/-!
Splitting a source into tokens. At each position the longest lexeme is taken; blanks other than
line breaks and comments are passed over. `lexeme` reads one piece and `scan` goes through a source.
-/
namespace Reckon

/-- One step through a source: a token, something passed over, or text that starts no token. The
last two parts of the first two are the text of the piece and what follows it. -/
inductive Piece where
  | token (token : Token) (text rest : List Char)
  | skipped (text rest : List Char)
  | unrecognized (text : List Char)
  deriving DecidableEq, Repr

namespace Lexer

def isLetter (c : Char) : Bool := c.isAlpha || c == '_'

def isWordPart (c : Char) : Bool := isLetter c || c.isDigit

/-- Blanks between tokens on one line. -/
def isSpace (c : Char) : Bool := c == ' ' || c == '\t' || c == '\r' || c == '\x0c'

def startsDigit : List Char → Bool
  | c :: _ => c.isDigit
  | [] => false

/-- A point counts as a fraction only with a digit behind it. -/
def startsFraction : List Char → Bool
  | '.' :: r => startsDigit r
  | _ => false

/-- The longest front part whose characters all satisfy `p`, and the rest. -/
def splitWhile (p : Char → Bool) (cs : List Char) : List Char × List Char :=
  (cs.takeWhile p, cs.dropWhile p)

@[simp] theorem splitWhile_append (p : Char → Bool) (cs : List Char) :
    (splitWhile p cs).1 ++ (splitWhile p cs).2 = cs := List.takeWhile_append_dropWhile

theorem splitWhile_ne_nil (p : Char → Bool) (c : Char) (r : List Char) (h : p c = true) :
    (splitWhile p (c :: r)).1 ≠ [] := by
  simp [splitWhile, h]

def digits : List Char → List Char × List Char := splitWhile Char.isDigit

def fraction : List Char → List Char × List Char
  | '.' :: r =>
    if startsDigit r then ('.' :: (digits r).1, (digits r).2) else ([], '.' :: r)
  | r => ([], r)

/-- Letter, optional sign and digits at the front, if all of it is there. -/
def exponent : List Char → List Char × List Char
  | c :: r =>
    if c == 'e' || c == 'E' then
      match r with
      | s :: d =>
        if (s == '+' || s == '-') && startsDigit d then (c :: s :: (digits d).1, (digits d).2)
        else if s.isDigit then (c :: (digits r).1, (digits r).2)
        else ([], c :: r)
      | [] => ([], c :: r)
    else ([], c :: r)
  | [] => ([], [])

/-- The longest number at the front: digits, fraction, exponent. -/
def number (cs : List Char) : List Char × List Char :=
  let whole := digits cs
  let part := fraction whole.2
  let power := exponent part.2
  (whole.1 ++ part.1 ++ power.1, power.2)

/-- A number with a second fraction behind it is no token; the whole run of digits and points
belongs to the mistake. -/
def numberPiece (cs : List Char) : Piece :=
  let (text, rest) := number cs
  if startsFraction rest then
    .unrecognized (text ++ rest.takeWhile (fun c => c == '.' || c.isDigit))
  else .token (.number (String.ofList text)) text rest

def wordPiece (cs : List Char) : Piece :=
  let (text, rest) := splitWhile isWordPart cs
  .token (Token.ofWord (String.ofList text)) text rest

/-- A text runs from its quote through the next quote; `r` follows the first quote. -/
def textPiece (r : List Char) : Piece :=
  match splitWhile (· != '"') r with
  | (content, _ :: rest) =>
    .token (.text (String.ofList content)) ('"' :: content ++ ['"']) rest
  | (_, []) => .unrecognized ['"']

def commentPiece (cs : List Char) : Piece :=
  let (text, rest) := splitWhile (· != '\n') cs
  .skipped text rest

def spacePiece (cs : List Char) : Piece :=
  let (text, rest) := splitWhile isSpace cs
  .skipped text rest

def symbolPiece (c : Char) (r : List Char) : Piece :=
  match Symbol.punctuation.find? (fun s => s.spelling.toList.isPrefixOf (c :: r)) with
  | some symbol =>
    .token (.symbol symbol) symbol.spelling.toList
      ((c :: r).drop symbol.spelling.toList.length)
  | none => .unrecognized [c]

/-- The piece at the front of the source whose characters are `c` and then `r`. -/
def lexeme (c : Char) (r : List Char) : Piece :=
  if c.isDigit || startsFraction (c :: r) then numberPiece (c :: r)
  else if isLetter c then wordPiece (c :: r)
  else if c == '"' then textPiece r
  else if c == '#' then commentPiece (c :: r)
  else if isSpace c then spacePiece (c :: r)
  else symbolPiece c r

def bytes : List Char → Nat
  | [] => 0
  | c :: cs => c.utf8Size + bytes cs

theorem fraction_append (cs : List Char) : (fraction cs).1 ++ (fraction cs).2 = cs := by
  unfold fraction
  split
  · split
    · simp [digits]
    · rfl
  · rfl

theorem exponent_append (cs : List Char) : (exponent cs).1 ++ (exponent cs).2 = cs := by
  unfold exponent
  split
  · split
    · split
      · split
        · simp [digits]
        · split
          · simp [digits]
          · rfl
      · rfl
    · rfl
  · rfl

theorem number_append (cs : List Char) : (number cs).1 ++ (number cs).2 = cs := by
  simp [number, digits, fraction_append, exponent_append]

/-- Where a number starts, its text is not empty. -/
theorem number_ne_nil (c : Char) (r : List Char)
    (h : (c.isDigit || startsFraction (c :: r)) = true) : (number (c :: r)).1 ≠ [] := by
  by_cases hc : c.isDigit
  · simp [number, digits, splitWhile_ne_nil _ c r hc]
  · have hf : startsFraction (c :: r) = true := by simpa [hc] using h
    have hw : digits (c :: r) = ([], c :: r) := by
      simp [digits, splitWhile, hc]
    unfold startsFraction at hf
    split at hf
    · rename_i r' heq
      simp only [List.cons.injEq] at heq
      obtain ⟨rfl, rfl⟩ := heq
      simp [number, hw, fraction, hf]
    · simp at hf

/-- A piece of `cs` that is passed over or becomes a token takes its text, at least one character,
off the front. -/
inductive Cuts (cs : List Char) : Piece → Prop
  | token (t : Token) (text rest : List Char) :
    text ++ rest = cs → text ≠ [] → Cuts cs (.token t text rest)
  | skipped (text rest : List Char) : text ++ rest = cs → text ≠ [] → Cuts cs (.skipped text rest)
  | unrecognized (text : List Char) : Cuts cs (.unrecognized text)

theorem textPiece_cuts (r : List Char) : Cuts ('"' :: r) (textPiece r) := by
  unfold textPiece
  split
  · rename_i content q rest h
    have hs := splitWhile_append (· != '"') r
    rw [h] at hs
    have hq : q = '"' := by
      have hd : r.dropWhile (· != '"') = q :: rest := congrArg Prod.snd h
      have := List.head_dropWhile_not (· != '"') (l := r) (by simp [hd])
      simpa [hd] using this
    subst hq
    exact .token _ _ _ (by simp [← hs]) (by simp)
  · exact .unrecognized _

theorem isPrefix_punctuation {s : Symbol} {cs : List Char}
    (h : s.spelling.toList.isPrefixOf cs = true) :
    s.spelling.toList ++ cs.drop s.spelling.toList.length = cs := by
  obtain ⟨rest, rfl⟩ := List.isPrefixOf_iff_prefix.1 h
  simp

theorem spelling_ne_nil (s : Symbol) : s.spelling.toList ≠ [] := by
  cases s <;> simp [Symbol.spelling]

theorem lexeme_cuts (c : Char) (r : List Char) : Cuts (c :: r) (lexeme c r) := by
  unfold lexeme
  split
  · rename_i h
    unfold numberPiece
    simp only
    split
    · exact .unrecognized _
    · exact .token _ _ _ (number_append _) (number_ne_nil c r h)
  · split
    · rename_i h
      exact .token _ _ _ (splitWhile_append isWordPart (c :: r))
        (splitWhile_ne_nil _ c r (by simp [isWordPart, h]))
    · split
      · rename_i h
        simp only [beq_iff_eq] at h
        subst h
        exact textPiece_cuts r
      · split
        · rename_i h
          simp only [beq_iff_eq] at h
          subst h
          exact .skipped _ _ (splitWhile_append (· != '\n') ('#' :: r))
            (splitWhile_ne_nil (· != '\n') '#' r rfl)
        · split
          · rename_i h
            exact .skipped _ _ (splitWhile_append isSpace (c :: r))
              (splitWhile_ne_nil _ c r h)
          · unfold symbolPiece
            split
            · rename_i s h
              exact .token _ _ _ (isPrefix_punctuation (by simpa using List.find?_some h))
                (spelling_ne_nil s)
            · exact .unrecognized _

theorem length_lt_of_append {cs text rest : List Char} (h : text ++ rest = cs) (hne : text ≠ []) :
    rest.length < cs.length := by
  have := List.length_pos_iff.2 hne
  rw [← h, List.length_append]
  omega

theorem token_rest_lt {c : Char} {r : List Char} {t : Token} {text rest : List Char}
    (h : lexeme c r = .token t text rest) : rest.length < (c :: r).length := by
  have cut := lexeme_cuts c r
  rw [h] at cut
  cases cut with | token _ _ _ happ hne => exact length_lt_of_append happ hne

theorem skipped_rest_lt {c : Char} {r text rest : List Char}
    (h : lexeme c r = .skipped text rest) : rest.length < (c :: r).length := by
  have cut := lexeme_cuts c r
  rw [h] at cut
  cases cut with | skipped _ _ happ hne => exact length_lt_of_append happ hne

/-- The tokens of a text that starts at byte `start` of its source. -/
def scan (start : Nat) : List Char → Except Unrecognized (List Located)
  | [] => .ok []
  | c :: r =>
    match h : lexeme c r with
    | .token t text rest =>
      have := token_rest_lt h
      (scan (start + bytes text) rest).map (⟨t, start⟩ :: ·)
    | .skipped text rest =>
      have := skipped_rest_lt h
      scan (start + bytes text) rest
    | .unrecognized text => .error ⟨String.ofList text, start⟩
termination_by cs => cs.length
decreasing_by all_goals exact this

end Lexer

def tokenize (source : String) : Except Unrecognized (List Located) :=
  Lexer.scan 0 source.toList

def Unrecognized.message (u : Unrecognized) : String :=
  "Unrecognized input " ++ Text.Quoted.encode u.text ++ " at offset " ++ toString u.offset

end Reckon
