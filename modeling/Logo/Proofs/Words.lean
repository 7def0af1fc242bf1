import Logo.Proofs.Stops

/-!
# How words are written

A backslash in a word stands for the character behind it, whatever that is. `Spells` ties the
characters of a source to the word that they stand for. The reader takes all that spells a word
off the front of a source (`scanWord_iff`), and there is no word only where such characters end
in a backslash at the end of the source (`scanWord_eq_none_iff`).
-/

namespace Logo.Source
set_option autoImplicit false
open Logo.Text

/-- The characters `written` stand for `word`; one that satisfies `stop` needs a backslash. -/
inductive Spells (stop : Char → Bool) : List Char → List Char → Prop where
  | nil : Spells stop [] []
  | plain {c : Char} {written word : List Char} : stop c = false → c ≠ '\\' →
      Spells stop written word → Spells stop (c :: written) (c :: word)
  | escaped (c : Char) {written word : List Char} : Spells stop written word →
      Spells stop ('\\' :: c :: written) (c :: word)

/-- No further character of a word follows. -/
def Stopped (stop : Char → Bool) (rest : List Char) : Prop :=
  ∀ c, rest.head? = some c → stop c = true

theorem stopped_nil (stop : Char → Bool) : Stopped stop [] := by
  intro c h
  cases h

theorem stopped_cons {stop : Char → Bool} {c : Char} (h : stop c = true) (rest : List Char) :
    Stopped stop (c :: rest) := by
  intro d hd
  cases hd
  exact h

section Scanning

variable {stop : Char → Bool} {taken cs written word rest : List Char}

/-- Any word is spelled by its characters with a backslash before each. -/
theorem spells_escaped (stop : Char → Bool) (word : List Char) :
    Spells stop (word.flatMap fun c => ['\\', c]) word := by
  induction word with
  | nil => exact .nil
  | cons c word ih => exact .escaped c ih

theorem Spells.scanWord (hstop : stop '\\' = false) (h : Spells stop written word)
    (hrest : Stopped stop rest) (taken : List Char) :
    scanWord stop taken (written ++ rest) = some (taken.reverse ++ word, rest) := by
  induction h generalizing taken with
  | nil =>
    cases rest with
    | nil => simp [scanWord_nil]
    | cons c rest => simp [scanWord_stop (hrest c rfl)]
  | plain hc hb _ ih =>
    rw [List.cons_append, scanWord_take hc hb, ih]
    simp
  | escaped c _ ih =>
    rw [List.cons_append, List.cons_append, scanWord_escape hstop, ih]
    simp

theorem spells_of_scanWord (h : scanWord stop taken cs = some (word, rest)) :
    ∃ written meant, cs = written ++ rest ∧ word = taken.reverse ++ meant ∧
      Spells stop written meant ∧ Stopped stop rest := by
  fun_induction scanWord stop taken cs with
  | case1 taken =>
    cases h
    exact ⟨[], [], rfl, by simp, .nil, stopped_nil stop⟩
  | case2 taken c cs hc =>
    cases h
    exact ⟨[], [], rfl, by simp, .nil, stopped_cons hc cs⟩
  | case3 => cases h
  | case4 taken e es _ ih =>
    obtain ⟨written, meant, rfl, rfl, hspells, hrest⟩ := ih h
    exact ⟨'\\' :: e :: written, e :: meant, rfl, by simp, .escaped e hspells, hrest⟩
  | case5 taken c cs hc hb ih =>
    obtain ⟨written, meant, rfl, rfl, hspells, hrest⟩ := ih h
    exact ⟨c :: written, c :: meant, rfl, by simp, .plain (by simpa using hc) hb hspells, hrest⟩

/-- The word at the front of a source, up to where it stops. -/
theorem scanWord_iff (hstop : stop '\\' = false) : scanWord stop [] cs = some (word, rest) ↔
    ∃ written, cs = written ++ rest ∧ Spells stop written word ∧ Stopped stop rest := by
  constructor
  · intro h
    obtain ⟨written, meant, hcs, hword, hspells, hrest⟩ := spells_of_scanWord h
    rw [List.reverse_nil, List.nil_append] at hword
    subst hword
    exact ⟨written, hcs, hspells, hrest⟩
  · rintro ⟨written, rfl, hspells, hrest⟩
    simpa using hspells.scanWord hstop hrest []

/-- There is no word where the source ends at a backslash that stands for nothing. -/
theorem scanWord_eq_none_iff (hstop : stop '\\' = false) : scanWord stop taken cs = none ↔
    ∃ written word, cs = written ++ ['\\'] ∧ Spells stop written word := by
  constructor
  · intro h
    fun_induction scanWord stop taken cs with
    | case1 => cases h
    | case2 => cases h
    | case3 taken _ => exact ⟨[], [], rfl, .nil⟩
    | case4 taken e es _ ih =>
      obtain ⟨written, word, rfl, hspells⟩ := ih h
      exact ⟨'\\' :: e :: written, e :: word, rfl, .escaped e hspells⟩
    | case5 taken c cs hc hb ih =>
      obtain ⟨written, word, rfl, hspells⟩ := ih h
      exact ⟨c :: written, c :: word, rfl, .plain (by simpa using hc) hb hspells⟩
  · rintro ⟨written, word, rfl, hspells⟩
    induction hspells generalizing taken with
    | nil =>
      rw [List.nil_append, scanWord.eq_def]
      simp [hstop]
    | plain hc hb _ ih => rw [List.cons_append, scanWord_take hc hb, ih]
    | escaped c _ ih => rw [List.cons_append, List.cons_append, scanWord_escape hstop, ih]

end Scanning

theorem isTerminator_backslash : isTerminator '\\' = false := rfl

theorem isDelimiter_backslash : isDelimiter '\\' = false := rfl

/-! ### Bare words -/

section Bare

variable {c : Char} {cs : List Char}

theorem not_blank_of_skipTrivia {inComment : Bool} {source : List Char}
    (h : skipTrivia inComment source = c :: cs) : isBlank c = false ∧ c ≠ ';' := by
  induction source generalizing inComment with
  | nil => cases h
  | cons d source ih =>
    rw [skipTrivia] at h
    split at h
    · exact ih h
    · split at h
      · exact ih h
      · rename_i hblank
        split at h
        · exact ih h
        · rename_i hcomment
          cases h
          exact ⟨by simpa using hblank, hcomment⟩

/-- What begins a word does not end one. -/
theorem isTerminator_of_startsWord (h : startsWord c cs = true) (hc : isBlank c = false ∧ c ≠ ';') :
    isTerminator c = false := by
  obtain ⟨h1, h2, h3, h4, -, -, h7, -⟩ := startsWord_ne h
  simp [isTerminator, isDelimiter, hc, h1, h2, h3, h4, h7]

/-- A bare word is a word like any other, since it does not begin with a character that ends
one. -/
theorem scanBareWord_eq (h : isTerminator c = false) :
    scanBareWord c cs = scanWord isTerminator [] (c :: cs) := by
  unfold scanBareWord
  split
  · rename_i hc
    subst hc
    cases cs with
    | nil =>
      rw [scanWord.eq_def]
      simp [isTerminator_backslash]
    | cons e es => rw [scanWord_escape isTerminator_backslash]
  · rename_i hc
    rw [scanWord_take h hc]

end Bare

end Logo.Source
