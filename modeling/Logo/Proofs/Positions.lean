import Logo.Proofs.Lines

/-!
# Line by line, down to the places of the refusals

A source behind a line break is read as it is by itself, so it is also refused as it is by
itself. The place of the refusal lies below what stands before the break: as many bytes and lines
further on, in the same column (`Position.behind_line`).
-/

namespace Logo.Source
set_option autoImplicit false
open Logo.Text

/-- The same place below a text of so many bytes and lines. -/
def Position.below (p : Position) (bytes lines : Nat) : Position :=
  ⟨p.offset + bytes, p.line + lines, p.column⟩

theorem Position.advance_below (p : Position) (bytes lines : Nat) (c : Char) :
    (p.below bytes lines).advance c = (p.advance c).below bytes lines := by
  unfold advance below
  split
  · simp only [mk.injEq, and_true]
    omega
  · simp only [mk.injEq, and_true]
    omega

theorem Position.foldl_advance_below (cs : List Char) (p : Position) (bytes lines : Nat) :
    cs.foldl advance (p.below bytes lines) = (cs.foldl advance p).below bytes lines := by
  induction cs generalizing p with
  | nil => rfl
  | cons c cs ih => rw [List.foldl_cons, List.foldl_cons, advance_below, ih]

/-- Bytes and line breaks are counted one by one. -/
theorem Position.foldl_advance (cs : List Char) (p : Position) :
    (cs.foldl advance p).offset = p.offset + String.utf8Len cs ∧
      (cs.foldl advance p).line = p.line + cs.count '\n' := by
  induction cs generalizing p with
  | nil => exact ⟨rfl, rfl⟩
  | cons c cs ih =>
    obtain ⟨hoffset, hline⟩ := ih (p.advance c)
    rw [List.foldl_cons, hoffset, hline, String.utf8Len_cons, List.count_cons]
    unfold advance
    split
    · rename_i hc
      subst hc
      simp only [beq_self_eq_true, if_true]
      omega
    · rename_i hc
      rw [if_neg (by simpa using hc)]
      simp only
      omega

/-- A place behind a line break. -/
theorem Position.behind_line (first cs : List Char) :
    behind (first ++ '\n' :: cs) = (behind cs).below (String.utf8Len first + 1) (first.count '\n' + 1) := by
  obtain ⟨hoffset, hline⟩ := foldl_advance first start
  have hbreak : (first.foldl advance start).advance '\n'
      = start.below (String.utf8Len first + 1) (first.count '\n' + 1) := by
    have hsize : '\n'.utf8Size = 1 := rfl
    simp only [advance, if_true, hoffset, hline, hsize, below, mk.injEq]
    exact ⟨Nat.add_assoc _ _ _, Nat.add_assoc _ _ _, rfl⟩
  rw [behind, List.foldl_append, List.foldl_cons, hbreak, foldl_advance_below]
  rfl

/-- What is refused behind a line break is refused below what stands before it. -/
theorem Refusal.locate_line {first second : List Char} {r : Refusal} (h : r.rest <:+ second) :
    r.locate (first ++ '\n' :: second) = ⟨(r.locate second).cause,
      (r.locate second).position.below (String.utf8Len first + 1) (first.count '\n' + 1)⟩ := by
  have hle := h.length_le
  have htake : (first ++ '\n' :: second).take ((first ++ '\n' :: second).length - r.rest.length)
      = first ++ '\n' :: second.take (second.length - r.rest.length) := by
    rw [List.take_append, List.length_append, List.length_cons, List.take_of_length_le (by omega)]
    have hrest : first.length + (second.length + 1) - r.rest.length - first.length
        = second.length - r.rest.length + 1 := by omega
    rw [hrest, List.take_succ_cons]
  simp only [locate, htake, Position.behind_line]

theorem endsInTo_reverse {program : List Value}
    (h : ∀ word, program.getLast? = some (.text word) → sameName word "to" = false) :
    endsInTo program.reverse = false := by
  rw [List.getLast?_eq_head?_reverse] at h
  cases hr : program.reverse with
  | nil => rfl
  | cons item items =>
    rw [hr] at h
    cases item
    case text word => exact h word rfl
    all_goals rfl

end Logo.Source

namespace Logo
open Source

theorem parse_error_iff {source : String} {fault : Source.Fault} :
    parse source = .error fault ↔
      ∃ r, readProgram source.toList = .error r ∧ fault = r.locate source.toList := by
  unfold parse
  cases readProgram source.toList with
  | ok p => simp [Except.mapError]
  | error r => simp [Except.mapError, eq_comm]

/-- **Line by line.** Behind a source that can be read, and that does not end with the word `to`,
and a line break, another source adds the program that it is by itself; and if it cannot be read by
itself, then not here either, for the same cause, in a place that is further on by the bytes of the
first source and the break and by as many lines as they have, in the same column. -/
theorem parse_line_by_line {first second : String} {program : List Value}
    (h : parse first = .ok program)
    (hlast : ∀ word, program.getLast? = some (.text word) → Text.sameName word "to" = false) :
    (∀ program', parse second = .ok program' →
      parse (first ++ "\n" ++ second) = .ok (program ++ program')) ∧
    ∀ cause offset line column, parse second = .error ⟨cause, ⟨offset, line, column⟩⟩ →
      parse (first ++ "\n" ++ second) = .error ⟨cause, ⟨offset + first.utf8ByteSize + 1,
        line + first.toList.count '\n' + 1, column⟩⟩ := by
  refine ⟨fun program' => parse_lines h (endsInTo_reverse hlast), ?_⟩
  intro cause offset line column herror
  obtain ⟨r, hr, hfault⟩ := parse_error_iff.1 herror
  have hread : readProgram (first.toList ++ '\n' :: second.toList) = .error r := by
    rw [readProgram_lines (parse_ok_iff.1 h) (endsInTo_reverse hlast), hr]
    rfl
  refine parse_error_iff.2 ⟨r, by rw [toList_lines, hread], ?_⟩
  have hbytes : first.utf8ByteSize = String.utf8Len first.toList := by
    rw [← String.utf8ByteSize_ofList, String.ofList_toList]
  rw [toList_lines, Refusal.locate_line (readProgram_error_suffix hr), ← hfault, hbytes]
  rfl

/-- `é` takes two bytes, and the parenthesis that follows on the next line opens nothing. -/
theorem parse_line_by_line_trial :
    parse "é" = .ok [.text "é"] ∧
    parse ")" = .error ⟨.unexpectedClose ')', ⟨0, 1, 1⟩⟩ ∧
    parse ("é" ++ "\n" ++ ")") = .error ⟨.unexpectedClose ')', ⟨3, 2, 1⟩⟩ := by
  have hword : State.initial.item false 'é' []
      = .ok (State.initial.push (.text "é") true, []) := by cbv
  have hfirst : parse "é" = .ok [.text "é"] := by
    rw [parse_ok_iff]
    show State.initial.read ['é'] = _
    rw [State.read_of_item rfl hword, State.read_of_end rfl]
    rfl
  have hparen : State.initial.item false ')' [] = .error ⟨.unexpectedClose ')', [')']⟩ := rfl
  have hsecond : parse ")" = .error ⟨.unexpectedClose ')', ⟨0, 1, 1⟩⟩ :=
    parse_error_iff.2 ⟨_, State.read_of_refused rfl hparen, rfl⟩
  have hlast : ∀ word, [Value.text "é"].getLast? = some (.text word) →
      Text.sameName word "to" = false := fun word hw => by cases hw; cbv
  exact ⟨hfirst, hsecond, (parse_line_by_line hfirst hlast).2 _ _ _ _ hsecond⟩

end Logo
