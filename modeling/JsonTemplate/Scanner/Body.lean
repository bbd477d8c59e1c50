import JsonTemplate.Text.Escape

/-!
# The bodies of string literals

From after its opening quote, a string literal runs to the first quote that no backslash
precedes. `Body.read` takes its raw text, checking each escape on the way, and says how the
literal ended: at its quote, at the end of the source, at an escape that does not exist, or
with a backslash as the last character of the source. A failed escape is consumed up to and
including the character that spoilt it.
-/

namespace JsonTemplate

/-- How the reading of a string literal ended. -/
inductive BodyEnd where
  | closed
  | unclosed
  | badEscape
  | lastBackslash
deriving DecidableEq, Repr

/-- What reading a string literal gives: the raw text before its end, the characters consumed
by the end itself, and what follows. -/
structure Body where
  raw : List Char
  tail : List Char
  rest : List Char
  ending : BodyEnd
deriving DecidableEq, Repr

/-- A run of hexadecimal digits: what was consumed, what follows, and whether it is complete. -/
def readHexRun : Nat → List Char → List Char × List Char × Bool
  | 0, rest => ([], rest, true)
  | _ + 1, [] => ([], [], false)
  | more + 1, c :: rest =>
    if isHexDigit c then
      let (digits, rest, complete) := readHexRun more rest
      (c :: digits, rest, complete)
    else ([c], rest, false)

/-- The escape after a backslash: what was consumed, what follows, and whether it exists. -/
def readEscape : List Char → List Char × List Char × Bool
  | [] => ([], [], false)
  | 'u' :: rest =>
    let (digits, rest, complete) := readHexRun 4 rest
    ('u' :: digits, rest, complete)
  | c :: rest => ([c], rest, (simpleEscape? c).isSome)

/-- The digits that are taken and what is left make up the text. -/
theorem readHexRun_append (count : Nat) (text : List Char) :
    (readHexRun count text).1 ++ (readHexRun count text).2.1 = text := by
  induction count, text using readHexRun.induct with
  | case1 => rfl
  | case2 => rfl
  | case3 more c rest hc digits rest' complete hr ih => simp_all [readHexRun]
  | case4 more c rest hc => simp [readHexRun, hc]

/-- What an escape takes and what it leaves make up the text. -/
theorem readEscape_append (text : List Char) :
    (readEscape text).1 ++ (readEscape text).2.1 = text := by
  unfold readEscape
  split
  · rfl
  · simp [readHexRun_append]
  · rfl

/-- What an escape leaves is no longer than the text. -/
theorem length_readEscape_rest_le (text : List Char) :
    (readEscape text).2.1.length ≤ text.length := by
  have h := congrArg List.length (readEscape_append text)
  simp only [List.length_append] at h
  omega

namespace Body

/-- The body with more raw text before it. -/
def after (before : List Char) (body : Body) : Body := { body with raw := before ++ body.raw }

/-- The body of the string literal whose opening quote has just been read. -/
def read : List Char → Body
  | [] => ⟨[], [], [], .unclosed⟩
  | '"' :: rest => ⟨[], ['"'], rest, .closed⟩
  | '\\' :: rest =>
    let escape := readEscape rest
    if rest.isEmpty then ⟨[], ['\\'], [], .lastBackslash⟩
    else if escape.2.2 then
      have := length_readEscape_rest_le rest
      (read escape.2.1).after ('\\' :: escape.1)
    else ⟨[], '\\' :: escape.1, escape.2.1, .badEscape⟩
  | c :: rest => (read rest).after [c]
termination_by text => text.length

/-- Reading a body loses nothing. -/
theorem append_read (text : List Char) :
    (read text).raw ++ (read text).tail ++ (read text).rest = text := by
  fun_induction read text with
  | case1 => rfl
  | case2 => rfl
  | case3 rest h => simp_all
  | case4 rest escape h he hle ih =>
    have := readEscape_append rest
    simp_all [after, escape]
  | case5 rest escape h he =>
    have := readEscape_append rest
    simp_all [escape]
  | case6 c rest _ _ ih => simp_all [after]

end Body

end JsonTemplate
