import Logo.Primitive.Perform
import Logo.Proofs.Floats

/-!
# Taking words and lists apart

Every selector sees a value as the list of its parts: the members of a list, or the
letters a word is written with. `count`, `item`, `first`, `last`, `butfirst`,
`butlast` and `emptyp` therefore agree about how many parts there are and which
part stands where, and what they take apart is put together again by `fput` and
`lput`, or by `word` (`selectors_agree`).
-/

namespace Logo
set_option autoImplicit false

/-- Lists and words can be taken apart; procedures cannot. -/
def Value.HasParts (d : Value) : Prop := d.asList?.isSome = true ∨ d.isWord = true

/-- The members of a list, or the letters of the text of a word. -/
def Value.partCount : Value → Nat
  | .list items => items.length
  | d => d.render.length

namespace Primitive

variable {σ : Type}

/-- The output of a primitive that has one. -/
def output? (p : Primitive) (inputs : List Value) (m : Machine σ) : Option Value :=
  match (p.perform inputs m).1 with
  | .ok (.reply v) => v
  | _ => none

/-- The primitives that take words and lists apart, and those that put them together. -/
def isSelector : Primitive → Bool
  | first | butFirst | last | butLast | fput | lput | word | count | item | isEmpty => true
  | _ => false

theorem perform_selector {p : Primitive} (hp : p.isSelector = true) (inputs : List Value)
    (m : Machine σ) :
    p.perform inputs m = ((p.compute inputs).map fun v => Effect.reply (some v), m) := by
  have hplan : p.perform inputs m = (do return .reply (some (← p.compute inputs)), m) := by
    cases p <;> first | rfl | cases hp
  rw [hplan]
  cases p.compute inputs <;> rfl

/-- A selector outputs something or fails; it changes nothing either way. -/
theorem selector_cases {p : Primitive} (hp : p.isSelector = true) (inputs : List Value)
    (m : Machine σ) :
    (∃ v, p.perform inputs m = (.ok (.reply (some v)), m) ∧ p.output? inputs m = some v) ∨
      ∃ f, p.perform inputs m = (.error f, m) ∧ p.output? inputs m = none := by
  rw [output?, perform_selector hp]
  cases p.compute inputs with
  | ok v => exact .inl ⟨v, rfl, rfl⟩
  | error f => exact .inr ⟨f, rfl, rfl⟩

theorem output?_eq {p : Primitive} (hp : p.isSelector = true) (inputs : List Value)
    (m : Machine σ) : p.output? inputs m = (p.compute inputs).toOption := by
  rw [output?, perform_selector hp]
  cases p.compute inputs <;> rfl

end Primitive

/-! ### The view through the parts -/

theorem Taker.accept_toOption {α : Type} (t : Taker) (v : Value) (o : Option α) :
    (t.accept v o).toOption = o := by
  cases o <;> rfl

theorem Value.HasParts.data {d : Value} (hd : d.HasParts) :
    ∃ parts, Data.of? d = some parts ∧ parts.size = d.partCount := by
  cases d with
  | list items => exact ⟨.members items, rfl, rfl⟩
  | procedure p => simp [HasParts, asList?, isWord] at hd
  | number n => exact ⟨.letters _, rfl, String.length_toList⟩
  | text s => exact ⟨.letters _, rfl, String.length_toList⟩
  | boolean b => exact ⟨.letters _, rfl, String.length_toList⟩

namespace Primitive

variable {σ : Type} {d : Value} {parts : Data}

/-- A selector of one input outputs what it selects from the parts. -/
theorem output?_select (p : Primitive) (hp : p.isSelector = true) (part? : Data → Option Value)
    (hcompute : ∀ inputs, p.compute inputs = p.select inputs part?) (hd : Data.of? d = some parts)
    (m : Machine σ) : p.output? [d] m = part? parts := by
  have hdata : p.data d = .ok parts := by rw [Primitive.data, hd]; rfl
  rw [output?_eq hp, hcompute]
  show (p.data d >>= fun parts => p.taker.accept d (part? parts)).toOption = part? parts
  rw [hdata]
  exact p.taker.accept_toOption d _

theorem output?_item {i : Value} {k : Int} (hi : i.toWhole? = some k) (hd : Data.of? d = some parts)
    (m : Machine σ) :
    item.output? [i, d] m = if k < 1 then none else parts.pieces[k.toNat - 1]? := by
  have hwhole : item.taker.whole i = .ok k := by rw [Taker.whole, hi]; rfl
  have hdata : item.data d = .ok parts := by rw [Primitive.data, hd]; rfl
  have hpick : item.pick i d = if k < 1 then item.taker.refuse i
      else item.taker.accept i (parts.item? (k.toNat - 1)) := by
    rw [pick, hwhole, hdata]
    rfl
  rw [output?_eq rfl]
  show (item.pick i d).toOption = _
  rw [hpick]
  split
  · rfl
  · exact item.taker.accept_toOption i _

theorem output?_item_none {i : Value} (hi : i.toWhole? = none) (d : Value) (m : Machine σ) :
    item.output? [i, d] m = none := by
  have hwhole : item.taker.whole i = item.taker.refuse i := by rw [Taker.whole, hi]; rfl
  rw [output?_eq rfl]
  show (item.pick i d).toOption = none
  rw [pick, hwhole]
  rfl

end Primitive

namespace Data

variable {parts : Data} {b : Value}

theorem isSome_first? : parts.first?.isSome = true ↔ 0 < parts.size := by
  rw [first?, List.isSome_head?, ← length_pieces, List.length_pos_iff]

theorem isSome_last? : parts.last?.isSome = true ↔ 0 < parts.size := by
  rw [last?, List.getLast?_isSome, ← length_pieces, List.length_pos_iff]

theorem isSome_butFirst? : parts.butFirst?.isSome = true ↔ 0 < parts.size := by
  cases parts with
  | members items => cases items <;> simp [butFirst?, size]
  | letters cs => cases cs <;> simp [butFirst?, size]

theorem isSome_butLast? : parts.butLast?.isSome = true ↔ 0 < parts.size := by
  cases parts with
  | members items => cases items <;> simp [butLast?, size]
  | letters cs => cases cs <;> simp [butLast?, size]

theorem of?_text (cs : List Char) : of? (.text (String.ofList cs)) = some (.letters cs) := by
  show some (letters ("" ++ String.ofList cs).toList) = some (letters cs)
  simp

theorem of?_list {d : Value} (hd : of? d = some parts) (hlist : d.asList?.isSome = true) :
    ∃ items, d = .list items ∧ parts = .members items := by
  cases d with
  | list items => exact ⟨items, rfl, (Option.some.inj hd).symm⟩
  | _ => cases hlist

theorem of?_word {d : Value} (hd : of? d = some parts) (hword : d.isWord = true) :
    parts = .letters d.render.toList := by
  cases d with
  | list items => cases hword
  | procedure p => cases hword
  | _ => exact (Option.some.inj hd).symm

/-- What `butfirst` leaves has the other parts. -/
theorem of?_butFirst (h : parts.butFirst? = some b) :
    ∃ rest, of? b = some rest ∧ rest.pieces = parts.pieces.tail := by
  cases parts with
  | members items =>
    cases items with
    | nil => cases h
    | cons v vs =>
      cases h
      exact ⟨.members vs, rfl, rfl⟩
  | letters cs =>
    cases cs with
    | nil => cases h
    | cons c cs =>
      cases h
      exact ⟨.letters cs, of?_text cs, rfl⟩

theorem of?_butLast (h : parts.butLast? = some b) :
    ∃ rest, of? b = some rest ∧ rest.pieces = parts.pieces.dropLast := by
  cases parts with
  | members items =>
    cases items with
    | nil => cases h
    | cons v vs =>
      cases h
      exact ⟨.members _, rfl, rfl⟩
  | letters cs =>
    cases cs with
    | nil => cases h
    | cons c cs =>
      cases h
      exact ⟨.letters _, of?_text _, List.map_dropLast⟩

end Data

/-! ### Texts of words -/

theorem numberText_ne_nil (x : Float) : (numberText x).toList ≠ [] := by
  cases hkind : Decimal.Kind.ofFloat x with
  | finite b =>
    have hfinite : Decimal.isFinite x = true := by rw [Decimal.isFinite, hkind]
    obtain ⟨negative, cs, n, p, hw, htext, -⟩ := Decimal.numberText_written hfinite
    obtain ⟨c, rest, rfl, -⟩ := hw.head
    rw [htext]
    cases negative <;> simp
  | infinite negative =>
    simp only [numberText, Decimal.wholeNumber?, Decimal.Layout.render, hkind]
    cases negative <;> decide
  | notNumber =>
    simp only [numberText, Decimal.wholeNumber?, Decimal.Layout.render, hkind]
    decide

/-- Only the empty list and the empty text have no parts. -/
theorem Value.isEmptyData_eq {d : Value} (hd : d.HasParts) :
    d.isEmptyData = (d.partCount == 0) := by
  have hrender : ∀ s : String, ("" ++ s).length = s.toList.length := fun s => by
    simp [String.length_toList]
  cases d with
  | list items => cases items <;> rfl
  | text s =>
    show (s == "") = (("" ++ s).length == 0)
    rw [hrender, Bool.eq_iff_iff, beq_iff_eq, beq_iff_eq, List.length_eq_zero_iff]
    exact String.toList_eq_nil_iff.symm
  | number n =>
    show false = (("" ++ numberText n).length == 0)
    rw [hrender, eq_comm, beq_eq_false_iff_ne, ne_eq, List.length_eq_zero_iff]
    exact numberText_ne_nil n
  | boolean b => cases b <;> decide
  | procedure p => simp [HasParts, asList?, isWord] at hd

/-- A whole number up to the limit is an index. -/
theorem Value.toWhole_ofNat {k : Nat} (hk : k ≤ exactLimit) :
    (Value.number (Float.ofNat k)).toWhole? = some (k : Int) := by
  have hnat : (k : Int).natAbs ≤ exactLimit := hk
  simp only [toWhole?, toNumber?, Decimal.wholeNumber_ofNat hk, if_pos hnat]

/-! ### The selectors together -/

section Agreement

open Primitive

variable {σ : Type} {d : Value} {parts : Data}

theorem output?_item_nat {i : Value} {k : Nat} (hi : i.toWhole? = some (k : Int)) (hk : 1 ≤ k)
    (hd : Data.of? d = some parts) (m : Machine σ) :
    item.output? [i, d] m = parts.pieces[k - 1]? := by
  rw [output?_item hi hd, if_neg (by omega), Int.toNat_natCast]

theorem item_isSome (hd : Data.of? d = some parts) (i : Value) (m : Machine σ) :
    (item.output? [i, d] m).isSome = true ↔
      ∃ k : Nat, 1 ≤ k ∧ k ≤ parts.size ∧ i.toWhole? = some (k : Int) := by
  constructor
  · intro h
    cases hi : i.toWhole? with
    | none => simp [output?_item_none hi] at h
    | some z =>
      rw [output?_item hi hd] at h
      split at h
      · cases h
      · rename_i hz
        obtain ⟨k, rfl⟩ := Int.eq_ofNat_of_zero_le (by omega : 0 ≤ z)
        rw [isSome_getElem?, Data.length_pieces] at h
        exact ⟨k, by omega, by omega, rfl⟩
  · rintro ⟨k, hk, hle, hi⟩
    rw [output?_item_nat hi hk hd, isSome_getElem?, Data.length_pieces]
    omega

theorem item_one (hd : Data.of? d = some parts) {i : Value} (hi : i.toWhole? = some 1)
    (m : Machine σ) : item.output? [i, d] m = parts.first? := by
  rw [output?_item_nat hi (le_refl 1) hd, Data.first?, List.head?_eq_getElem?]

theorem item_size (hd : Data.of? d = some parts) {i : Value}
    (hi : i.toWhole? = some (parts.size : Int)) (m : Machine σ) :
    item.output? [i, d] m = parts.last? := by
  rw [Data.last?, List.getLast?_eq_getElem?, Data.length_pieces]
  cases hsize : parts.size with
  | zero =>
    have hnil : parts.pieces = [] := List.length_eq_zero_iff.1 (by rw [Data.length_pieces, hsize])
    rw [output?_item hi hd, hsize, hnil]
    rfl
  | succ n => rw [output?_item_nat hi (by omega) hd, hsize]

theorem item_butFirst (hd : Data.of? d = some parts) {b : Value} (hb : parts.butFirst? = some b)
    {i j : Value} {k : Nat} (hk : 1 ≤ k) (hi : i.toWhole? = some (k : Int))
    (hj : j.toWhole? = some ((k + 1 : Nat) : Int)) (m : Machine σ) :
    item.output? [i, b] m = item.output? [j, d] m := by
  obtain ⟨rest, hrest, hpieces⟩ := Data.of?_butFirst hb
  rw [output?_item_nat hi hk hrest, output?_item_nat hj (by omega) hd, hpieces, List.getElem?_tail]
  congr 1
  omega

theorem item_butLast (hd : Data.of? d = some parts) {b : Value} (hb : parts.butLast? = some b)
    {i : Value} {k : Nat} (hk : k ≠ parts.size) (hi : i.toWhole? = some (k : Int)) (m : Machine σ) :
    item.output? [i, b] m = item.output? [i, d] m := by
  obtain ⟨rest, hrest, hpieces⟩ := Data.of?_butLast hb
  cases k with
  | zero => rw [output?_item hi hrest, output?_item hi hd, if_pos (by omega), if_pos (by omega)]
  | succ k =>
    rw [output?_item_nat hi (by omega) hrest, output?_item_nat hi (by omega) hd, hpieces,
      List.getElem?_dropLast, Data.length_pieces]
    split
    · rfl
    · rw [eq_comm, List.getElem?_eq_none_iff, Data.length_pieces]
      omega

theorem fput_ends {items : List Value} {v vs : Value} (hv : (Data.members items).first? = some v)
    (hvs : (Data.members items).butFirst? = some vs) (m : Machine σ) :
    fput.output? [v, vs] m = some (.list items) := by
  cases items with
  | nil => cases hv
  | cons w ws =>
    cases hv
    cases hvs
    rfl

theorem lput_ends {items : List Value} {v vs : Value} (hv : (Data.members items).last? = some v)
    (hvs : (Data.members items).butLast? = some vs) (m : Machine σ) :
    lput.output? [v, vs] m = some (.list items) := by
  cases items with
  | nil => cases hv
  | cons w ws =>
    cases hvs
    have hlast : (w :: ws).dropLast ++ [v] = w :: ws := List.dropLast_append_getLast? v hv
    rw [output?_eq rfl]
    exact congrArg (fun items => some (Value.list items)) hlast

theorem word_texts (cs ds : List Char) (m : Machine σ) :
    word.output? [.text (String.ofList cs), .text (String.ofList ds)] m
      = some (.text (String.ofList (cs ++ ds))) := by
  rw [output?_eq rfl]
  show some (Value.text (String.join ["" ++ String.ofList cs, "" ++ String.ofList ds])) = _
  simp [String.join]

theorem word_first {cs : List Char} {v vs : Value} (hv : (Data.letters cs).first? = some v)
    (hvs : (Data.letters cs).butFirst? = some vs) (m : Machine σ) :
    word.output? [v, vs] m = some (.text (String.ofList cs)) := by
  cases cs with
  | nil => cases hv
  | cons c cs =>
    cases hv
    cases hvs
    exact word_texts [c] cs m

theorem word_last {cs : List Char} {v vs : Value} (hv : (Data.letters cs).last? = some v)
    (hvs : (Data.letters cs).butLast? = some vs) (m : Machine σ) :
    word.output? [vs, v] m = some (.text (String.ofList cs)) := by
  cases cs with
  | nil => cases hv
  | cons c cs =>
    cases hvs
    rw [Data.last?, Data.pieces, List.getLast?_map, Option.map_eq_some_iff] at hv
    obtain ⟨l, hl, rfl⟩ := hv
    rw [word_texts, List.dropLast_append_getLast? l hl]

end Agreement

/-- On machine `m` the selectors agree that `d` has `n` parts, and on which part is where. An index
is a value that stands for a whole number, and a selector succeeds when it has an output. -/
structure SelectorsAgree {σ : Type} (m : Machine σ) (d : Value) (n : Nat) : Prop where
  count : Primitive.count.output? [d] m = some (.number (Float.ofNat n))
  item : ∀ i : Value, (Primitive.item.output? [i, d] m).isSome = true ↔
    ∃ k : Nat, 1 ≤ k ∧ k ≤ n ∧ i.toWhole? = some (k : Int)
  first : (Primitive.first.output? [d] m).isSome = true ↔ 0 < n
  last : (Primitive.last.output? [d] m).isSome = true ↔ 0 < n
  butFirst : (Primitive.butFirst.output? [d] m).isSome = true ↔ 0 < n
  butLast : (Primitive.butLast.output? [d] m).isSome = true ↔ 0 < n
  item_one : ∀ i : Value, i.toWhole? = some 1 →
    Primitive.item.output? [i, d] m = Primitive.first.output? [d] m
  item_count : ∀ i : Value, i.toWhole? = some (n : Int) →
    Primitive.item.output? [i, d] m = Primitive.last.output? [d] m
  item_butFirst : ∀ (b i j : Value) (k : Nat), Primitive.butFirst.output? [d] m = some b → 1 ≤ k →
    i.toWhole? = some (k : Int) → j.toWhole? = some ((k + 1 : Nat) : Int) →
      Primitive.item.output? [i, b] m = Primitive.item.output? [j, d] m
  item_butLast : ∀ (b i : Value) (k : Nat), Primitive.butLast.output? [d] m = some b → k ≠ n →
    i.toWhole? = some (k : Int) → Primitive.item.output? [i, b] m = Primitive.item.output? [i, d] m
  isEmpty : Primitive.isEmpty.output? [d] m = some (.boolean (n == 0))
  fput : d.asList?.isSome = true → ∀ v vs : Value, Primitive.first.output? [d] m = some v →
    Primitive.butFirst.output? [d] m = some vs → Primitive.fput.output? [v, vs] m = some d
  lput : d.asList?.isSome = true → ∀ v vs : Value, Primitive.last.output? [d] m = some v →
    Primitive.butLast.output? [d] m = some vs → Primitive.lput.output? [v, vs] m = some d
  word_first : d.isWord = true → ∀ v vs : Value, Primitive.first.output? [d] m = some v →
    Primitive.butFirst.output? [d] m = some vs →
      Primitive.word.output? [v, vs] m = some (.text d.render)
  word_last : d.isWord = true → ∀ v vs : Value, Primitive.last.output? [d] m = some v →
    Primitive.butLast.output? [d] m = some vs →
      Primitive.word.output? [vs, v] m = some (.text d.render)

/-- **The selectors are consistent over lists and words.** They agree on every list and every word,
with the number of its members or letters for the count; every whole number up to the limit, so
every count there can be, is an index; and a selector that has no output failed, with the machine as
it was in either case. -/
theorem selectors_agree {σ : Type} (m : Machine σ) (d : Value) (hd : d.HasParts) :
    SelectorsAgree m d d.partCount ∧
    (∀ k ≤ exactLimit, (Value.number (Float.ofNat k)).toWhole? = some (k : Int)) ∧
    ∀ p : Primitive, p.isSelector = true → ∀ inputs : List Value,
      (∃ v, p.perform inputs m = (.ok (.reply (some v)), m) ∧ p.output? inputs m = some v) ∨
        ∃ f, p.perform inputs m = (.error f, m) ∧ p.output? inputs m = none := by
  obtain ⟨parts, hparts, hsize⟩ := hd.data
  have hfirst := Primitive.output?_select .first rfl Data.first? (fun _ => rfl) hparts m
  have hlast := Primitive.output?_select .last rfl Data.last? (fun _ => rfl) hparts m
  have hbutFirst := Primitive.output?_select .butFirst rfl Data.butFirst? (fun _ => rfl) hparts m
  have hbutLast := Primitive.output?_select .butLast rfl Data.butLast? (fun _ => rfl) hparts m
  refine ⟨?_, fun k => Value.toWhole_ofNat, fun p hp inputs => Primitive.selector_cases hp inputs m⟩
  rw [← hsize]
  constructor
  case count => exact Primitive.output?_select .count rfl _ (fun _ => rfl) hparts m
  case item => exact fun i => item_isSome hparts i m
  case first => rw [hfirst]; exact Data.isSome_first?
  case last => rw [hlast]; exact Data.isSome_last?
  case butFirst => rw [hbutFirst]; exact Data.isSome_butFirst?
  case butLast => rw [hbutLast]; exact Data.isSome_butLast?
  case item_one => exact fun i hi => (item_one hparts hi m).trans hfirst.symm
  case item_count => exact fun i hi => (item_size hparts hi m).trans hlast.symm
  case item_butFirst =>
    intro b i j k hb hk hi hj
    exact item_butFirst hparts (hbutFirst.symm.trans hb) hk hi hj m
  case item_butLast =>
    intro b i k hb hk hi
    exact item_butLast hparts (hbutLast.symm.trans hb) hk hi m
  case isEmpty =>
    rw [hsize, ← Value.isEmptyData_eq hd]
    rfl
  case fput =>
    intro hlist v vs hv hvs
    obtain ⟨items, rfl, rfl⟩ := Data.of?_list hparts hlist
    exact fput_ends (hfirst.symm.trans hv) (hbutFirst.symm.trans hvs) m
  case lput =>
    intro hlist v vs hv hvs
    obtain ⟨items, rfl, rfl⟩ := Data.of?_list hparts hlist
    exact lput_ends (hlast.symm.trans hv) (hbutLast.symm.trans hvs) m
  case word_first =>
    intro hword v vs hv hvs
    obtain rfl := Data.of?_word hparts hword
    rw [word_first (hfirst.symm.trans hv) (hbutFirst.symm.trans hvs), String.ofList_toList]
  case word_last =>
    intro hword v vs hv hvs
    obtain rfl := Data.of?_word hparts hword
    rw [word_last (hlast.symm.trans hv) (hbutLast.symm.trans hvs), String.ofList_toList]

/-- The letters of a number are those it is written with. -/
theorem selectors_agree_trial :
    let m : Machine Unit := ⟨Engine.new () .silent 10 false, {}⟩
    (Value.number (-12.5)).HasParts ∧ (Value.number (-12.5)).partCount = 5 ∧
    SelectorsAgree m (.number (-12.5)) 5 ∧
    (Value.number (Float.ofNat 5)).toWhole? = some 5 := by
  intro m
  have hparts : (Value.number (-12.5)).HasParts := .inr rfl
  have hcount : (Value.number (-12.5)).partCount = 5 := by decide +kernel
  obtain ⟨hagree, hindex, -⟩ := selectors_agree m (.number (-12.5)) hparts
  exact ⟨hparts, hcount, hcount ▸ hagree, hindex 5 (by decide +kernel)⟩

end Logo
