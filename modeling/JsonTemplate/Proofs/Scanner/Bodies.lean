import JsonTemplate.Proofs.Scanner.TokenGrammar

/-!
# The string bodies that are read

A string literal is read to its closing quote exactly when what stands between the quotes is a
string body of the grammar. The two directions follow the cases of the body: a plain
character, an escape of one letter, and an escape with four hexadecimal digits.
-/

namespace JsonTemplate

/-- The digits of an escape are the hexadecimal ones. -/
theorem isHexDigit_iff (c : Char) : isHexDigit c ↔ HexDigit c := by
  unfold isHexDigit hexValue? HexDigit
  split
  · simp [*]
  · split
    · simp [*]
    · split <;> simp [*]

/-- The letters of the simple escapes. -/
theorem isSome_simpleEscape?_iff (c : Char) :
    (simpleEscape? c).isSome ↔ c ∈ ['"', '\\', '/', 'b', 'f', 'n', 'r', 't'] := by
  unfold simpleEscape?
  split <;> simp_all

/-- An escape of one letter is complete. -/
theorem readEscape_of_simple {c : Char} {rest : List Char}
    (hc : c ∈ ['"', '\\', '/', 'b', 'f', 'n', 'r', 't']) :
    readEscape (c :: rest) = ([c], rest, true) := by
  have hsome := (isSome_simpleEscape?_iff c).mpr hc
  unfold readEscape
  split
  · contradiction
  · rename_i heq
    cases heq
    cases hsome
  · rename_i heq
    cases heq
    rw [hsome]

/-- An escape with four hexadecimal digits is complete. -/
theorem readEscape_of_numbered {c₁ c₂ c₃ c₄ : Char} {rest : List Char} (h₁ : HexDigit c₁)
    (h₂ : HexDigit c₂) (h₃ : HexDigit c₃) (h₄ : HexDigit c₄) :
    readEscape ('u' :: c₁ :: c₂ :: c₃ :: c₄ :: rest) = (['u', c₁, c₂, c₃, c₄], rest, true) := by
  rw [← isHexDigit_iff] at h₁ h₂ h₃ h₄
  simp [readEscape, readHexRun, h₁, h₂, h₃, h₄]

/-- A complete run of hexadecimal digits has as many as were asked for. -/
theorem hexDigits_of_readHexRun {count : Nat} {text : List Char}
    (h : (readHexRun count text).2.2 = true) :
    (readHexRun count text).1.length = count ∧
      ∀ c ∈ (readHexRun count text).1, HexDigit c := by
  induction count, text using readHexRun.induct with
  | case1 => exact ⟨rfl, fun _ hc => absurd hc List.not_mem_nil⟩
  | case2 => cases h
  | case3 more c rest hc digits rest' complete hr ih =>
    simp only [readHexRun, hc, if_true] at h ⊢
    obtain ⟨hlength, hall⟩ := ih h
    refine ⟨congrArg Nat.succ hlength, fun d hd => ?_⟩
    rcases List.mem_cons.mp hd with rfl | hd
    · exact (isHexDigit_iff d).mp hc
    · exact hall d hd
  | case4 more c rest hc => simp [readHexRun, hc] at h

/-- A complete escape before a string body makes a string body. -/
theorem stringBody_of_readEscape {text body : List Char} (h : (readEscape text).2.2 = true)
    (hbody : StringBody body) : StringBody ('\\' :: ((readEscape text).1 ++ body)) := by
  unfold readEscape at h ⊢
  split at h
  · cases h
  · obtain ⟨hlength, hall⟩ := hexDigits_of_readHexRun h
    dsimp only
    generalize (readHexRun 4 _).1 = digits at hlength hall
    match digits, hlength, hall with
    | [c₁, c₂, c₃, c₄], _, hall =>
      exact .numbered (hall c₁ (by simp)) (hall c₂ (by simp)) (hall c₃ (by simp))
        (hall c₄ (by simp)) hbody
  · exact .simple ((isSome_simpleEscape?_iff _).mp h) hbody

namespace Body

/-- Reading goes on after a complete escape. -/
theorem read_backslash {text consumed rest : List Char} (hne : text ≠ [])
    (h : readEscape text = (consumed, rest, true)) :
    read ('\\' :: text) = (read rest).after ('\\' :: consumed) := by
  rw [read]
  simp [h, hne]

/-- A string body is read up to the quote after it. -/
theorem read_append_quote {body : List Char} (h : StringBody body) (rest : List Char) :
    read (body ++ '"' :: rest) = ⟨body, ['"'], rest, .closed⟩ := by
  induction h with
  | nil => rw [List.nil_append, read]
  | plain hquote hbackslash _ ih =>
    rw [List.cons_append, read, ih]
    · rfl
    · exact hquote
    · exact hbackslash
  | simple hc _ ih =>
    rw [List.cons_append, List.cons_append,
      read_backslash (List.cons_ne_nil _ _) (readEscape_of_simple hc), ih]
    rfl
  | numbered h₁ h₂ h₃ h₄ _ ih =>
    simp only [List.cons_append]
    rw [read_backslash (List.cons_ne_nil _ _) (readEscape_of_numbered h₁ h₂ h₃ h₄), ih]
    rfl

/-- What is read up to a closing quote is a string body. -/
theorem stringBody_of_read {text : List Char} (h : (read text).ending = .closed) :
    StringBody (read text).raw ∧ (read text).tail = ['"'] := by
  fun_induction read text with
  | case1 => cases h
  | case2 => exact ⟨.nil, rfl⟩
  | case3 => cases h
  | case4 rest escape hne hescape hle ih =>
    obtain ⟨hbody, htail⟩ := ih h
    exact ⟨stringBody_of_readEscape hescape hbody, htail⟩
  | case5 => cases h
  | case6 c rest hquote hbackslash ih =>
    obtain ⟨hbody, htail⟩ := ih h
    exact ⟨.plain hquote hbackslash hbody, htail⟩

end Body

end JsonTemplate
