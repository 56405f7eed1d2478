import Mathlib
import TagFormula.Value.Format
import TagFormula.Value.Operator

/-!
Formats piece by piece. A format is a sequence of literal bytes, doubled percent signs and specifications, and
each specification takes one argument and one more for each star. Main statement: a format that ends with a whole
specification is written in front of any other one, which gets the arguments that are left.
-/

namespace TagFormula

namespace Format

/-! ### The elements of a format -/

/-- How a width is written, or what stands behind a point: a star, digits or nothing. -/
def IsSize (t : Text) : Prop := t = ascii "*" ∨ ∀ b ∈ t, Byte.isDigit b

/-- The byte behind a size is no part of it. -/
def SizeEnds (t : Text) (behind : Option UInt8) : Prop :=
  t = ascii "*" ∨ ∀ b ∈ behind, Byte.isDigit b = false ∧ (t = [] → b ≠ ch '*')

/-- A point with what stands behind it. -/
def point (precision : Option Text) : Text := precision.elim [] (ch '.' :: ·)

/-- A specification as it is written behind its percent sign. Each part is as long as it can be, and the letter is
the byte behind them all. -/
structure Specification where
  flags : Text
  width : Text
  precision : Option Text
  marks : Text
  letter : UInt8
  isFlag_flags : ∀ b ∈ flags, isFlag b
  isSize_width : IsSize width
  isSize_precision : ∀ t ∈ precision, IsSize t
  isLengthMark_marks : ∀ b ∈ marks, isLengthMark b
  flags_end : ∀ b ∈ (width ++ (point precision ++ (marks ++ [letter]))).head?, isFlag b = false
  width_end : SizeEnds width (point precision ++ (marks ++ [letter])).head?
  point_end : precision = none → (marks ++ [letter]).head? ≠ some (ch '.')
  precision_end : ∀ t ∈ precision, SizeEnds t (marks ++ [letter]).head?
  marks_end : isLengthMark letter = false
  /-- Two percent signs are no specification. -/
  percent : (flags ++ (width ++ (point precision ++ (marks ++ [letter])))).head? ≠ some (ch '%')

namespace Specification

def text (s : Specification) : Text := s.flags ++ (s.width ++ (point s.precision ++ (s.marks ++ [s.letter])))

/-- The arguments that a specification takes: one for each star, and then the one that it writes. -/
def arguments (s : Specification) : Nat := s.width.count (ch '*') + (s.precision.getD []).count (ch '*') + 1

end Specification

/-- An element of a format. -/
inductive Element where
  | literal (b : UInt8) (h : b ≠ ch '%')
  | percent
  | specification (s : Specification)

namespace Element

def text : Element → Text
  | .literal b _ => [b]
  | .percent => ascii "%%"
  | .specification s => ch '%' :: s.text

def arguments : Element → Nat
  | .specification s => s.arguments
  | _ => 0

end Element

/-- The text of a format. -/
def textOf (f : List Element) : Text := f.flatMap Element.text

/-- The arguments that a format takes. -/
def argumentsOf (f : List Element) : Nat := (f.map Element.arguments).sum

/-- Every percent sign twice. -/
def doubled (t : Text) : Text := t.flatMap fun b => if b = ch '%' then [b, b] else [b]

/-! ### Reading an element -/

/-- What a size stands for. -/
def sizeOf? (t : Text) : Option Size :=
  if t = ascii "*" then some .star else if t.isEmpty then none else some (.number (Text.natValue t))

theorem head?_append_cons (t : Text) (c : UInt8) (g : Text) : (t ++ c :: g).head? = (t ++ [c]).head? := by
  cases t <;> rfl

/-- A run of a class ends in front of a byte outside it. -/
theorem span_append {p : UInt8 → Bool} {t behind : Text} (h : ∀ b ∈ t, p b)
    (hend : ∀ b ∈ behind.head?, p b = false) :
    (t ++ behind).takeWhile p = t ∧ (t ++ behind).dropWhile p = behind := by
  rw [List.takeWhile_append_of_pos h, List.dropWhile_append_of_pos h]
  cases behind with
  | nil => simp
  | cons b behind => simp [hend b rfl]

theorem readSize_append {t behind : Text} (ht : IsSize t) (hend : SizeEnds t behind.head?) :
    readSize (t ++ behind) = (sizeOf? t, behind) := by
  by_cases hstar : t = ascii "*"
  · rw [hstar]
    rfl
  · have hdigits := ht.resolve_left hstar
    have hbehind := hend.resolve_left hstar
    obtain ⟨htake, hdrop⟩ := span_append hdigits fun b hb => (hbehind b hb).1
    have hhead : (t ++ behind).head? ≠ some (ch '*') := by
      cases t with
      | nil => exact fun h => (hbehind _ h).2 rfl rfl
      | cons b t =>
        intro h
        have hb := hdigits b (List.mem_cons_self ..)
        rw [Option.some.inj h] at hb
        exact absurd hb (by decide)
    rw [readSize, if_neg hhead, htake, hdrop, sizeOf?, if_neg hstar]

theorem readPrecision_append {precision : Option Text} {behind : Text} (hsize : ∀ t ∈ precision, IsSize t)
    (hpoint : precision = none → behind.head? ≠ some (ch '.'))
    (hend : ∀ t ∈ precision, SizeEnds t behind.head?) :
    readPrecision (point precision ++ behind) = (precision.map fun t => (sizeOf? t).getD (.number 0), behind) := by
  cases precision with
  | none => exact if_neg (hpoint rfl)
  | some t =>
    have hread := readSize_append (hsize t rfl) (hend t rfl)
    change (some ((readSize (t ++ behind)).1.getD (.number 0)), (readSize (t ++ behind)).2) = _
    rw [hread]
    rfl

namespace Specification

/-- What a specification stands for up to its letter. -/
def spec (s : Specification) : Spec :=
  ⟨.ofText s.flags, sizeOf? s.width, s.precision.map fun t => (sizeOf? t).getD (.number 0)⟩

/-- A specification is read up to its letter, whatever stands behind it. -/
theorem readSpec_text (s : Specification) (g : Text) : readSpec (s.text ++ g) = (s.spec, s.letter :: g) := by
  have htext : s.text ++ g = s.flags ++ (s.width ++ (point s.precision ++ (s.marks ++ s.letter :: g))) := by
    simp [text]
  have hmarks : (s.marks ++ s.letter :: g).head? = (s.marks ++ [s.letter]).head? := head?_append_cons ..
  have hpoint : (point s.precision ++ (s.marks ++ s.letter :: g)).head?
      = (point s.precision ++ (s.marks ++ [s.letter])).head? := by
    rw [← List.append_assoc, head?_append_cons, List.append_assoc]
  have hwidth : (s.width ++ (point s.precision ++ (s.marks ++ s.letter :: g))).head?
      = (s.width ++ (point s.precision ++ (s.marks ++ [s.letter]))).head? := by
    simp only [← List.append_assoc]
    exact head?_append_cons ..
  obtain ⟨hflags, hafter⟩ := span_append s.isFlag_flags (hwidth ▸ s.flags_end)
  have hletterEnd : ∀ b ∈ (s.letter :: g).head?, isLengthMark b = false := by
    rintro b ⟨⟩
    exact s.marks_end
  obtain ⟨-, hletter⟩ := span_append s.isLengthMark_marks hletterEnd
  rw [htext, readSpec, hflags, hafter, readSize_append s.isSize_width (hpoint ▸ s.width_end),
    readPrecision_append s.isSize_precision (fun h => hmarks ▸ s.point_end h)
      (fun t ht => hmarks ▸ s.precision_end t ht), hletter]
  rfl

end Specification

theorem parse_literal {b : UInt8} (h : b ≠ ch '%') (g : Text) : parse (b :: g) = .byte b :: parse g := by
  rw [parse, if_pos (bne_iff_ne.2 h)]

theorem parse_percent (g : Text) : parse (ch '%' :: ch '%' :: g) = .byte (ch '%') :: parse g := by
  rw [parse, if_neg (by decide), List.head?_cons, if_pos rfl]
  rfl

theorem parse_directive {rest after : Text} {letter : UInt8} (hpercent : rest.head? ≠ some (ch '%'))
    (h : (readSpec rest).2 = letter :: after) :
    parse (ch '%' :: rest) = .directive (readSpec rest).1 letter :: parse after := by
  rw [parse, if_neg (by decide), if_neg hpercent]
  split
  · rename_i hnil
    rw [h] at hnil
    cases hnil
  · rename_i hcons
    rw [h] at hcons
    obtain ⟨rfl, rfl⟩ := List.cons.inj hcons
    rfl

/-- The piece that an element is read as. -/
def Element.piece : Element → Piece
  | .literal b _ => .byte b
  | .percent => .byte (ch '%')
  | .specification s => .directive s.spec s.letter

theorem parse_element (e : Element) (g : Text) : parse (e.text ++ g) = e.piece :: parse g := by
  cases e with
  | literal b h => exact parse_literal h g
  | percent => exact parse_percent g
  | specification s =>
    have hread := s.readSpec_text g
    have hpercent : (s.text ++ g).head? ≠ some (ch '%') := by
      have hne : s.text ≠ [] := by simp [Specification.text]
      rw [List.head?_append, List.head?_eq_some_head hne, Option.some_or, ← List.head?_eq_some_head hne]
      exact s.percent
    change parse (ch '%' :: (s.text ++ g)) = _
    rw [parse_directive hpercent (congrArg Prod.snd hread), hread]
    rfl

/-- Elements are read one by one, whatever stands behind them. -/
theorem parse_elements (f : List Element) (g : Text) : parse (textOf f ++ g) = f.map Element.piece ++ parse g := by
  induction f with
  | nil => rfl
  | cons e f ih =>
    rw [textOf, List.flatMap_cons, List.append_assoc, parse_element]
    exact congrArg (e.piece :: ·) ih

theorem parse_textOf (f : List Element) : parse (textOf f) = f.map Element.piece := by
  simpa [parse] using parse_elements f []

/-! ### Taking arguments -/

/-- Does its work on the first `n` arguments, where missing ones are empty, and leaves the others. -/
def Takes {α : Type} (n : Nat) (act : List Value → Except Fault (α × List Value)) : Prop :=
  ∃ work : List Value → Except Fault α, ∀ args, act args = (work (args.takeD n .empty)).map (·, args.drop n)

theorem take_takeD (n m : Nat) (args : List Value) : (args.takeD (n + m) .empty).take n = args.takeD n .empty := by
  induction n generalizing args with
  | zero => rfl
  | succ n ih => rw [Nat.succ_add, List.takeD, List.take_succ_cons, ih, List.takeD]

theorem drop_takeD (n m : Nat) (args : List Value) :
    (args.takeD (n + m) .empty).drop n = (args.drop n).takeD m .empty := by
  induction n generalizing args with
  | zero => simp
  | succ n ih => rw [Nat.succ_add, List.takeD, List.drop_succ_cons, ih, List.drop_tail]

theorem takeD_takeD (n m : Nat) (args : List Value) :
    (args.takeD (n + m) .empty).takeD n .empty = args.takeD n .empty := by
  rw [List.takeD_eq_take _ (by simp), take_takeD]

theorem mem_takeD {n : Nat} {args : List Value} {v : Value} (h : v ∈ args.takeD n .empty) :
    v ∈ args ∨ v = .empty := by
  induction n generalizing args with
  | zero => cases h
  | succ n ih =>
    cases args with
    | nil =>
      rcases List.mem_cons.1 h with rfl | h
      · exact Or.inr rfl
      · exact ih h
    | cons w args =>
      rcases List.mem_cons.1 h with rfl | h
      · exact Or.inl (List.mem_cons_self ..)
      · exact (ih h).imp_left (List.mem_cons_of_mem _)

theorem Takes.ok {α : Type} (x : α) : Takes 0 fun args => .ok (x, args) :=
  ⟨fun _ => .ok x, fun _ => rfl⟩

/-- Work on the next argument alone. -/
theorem Takes.next {α : Type} (work : Value → Except Fault α) :
    Takes 1 fun args => (work (next args).1).map (·, (next args).2) := by
  refine ⟨fun first => work (first.headD .empty), fun args => ?_⟩
  cases args <;> rfl

/-- Two steps one after the other. -/
theorem Takes.bind {α β : Type} {n m : Nat} {first : List Value → Except Fault (α × List Value)}
    {second : α → List Value → Except Fault (β × List Value)} (hfirst : Takes n first)
    (hsecond : ∀ x, Takes m (second x)) : Takes (n + m) fun args => (first args).bind fun r => second r.1 r.2 := by
  obtain ⟨work, hwork⟩ := hfirst
  choose more hmore using hsecond
  refine ⟨fun taken => (work (taken.take n)).bind fun x => more x (taken.drop n), fun args => ?_⟩
  dsimp only
  rw [hwork, take_takeD, drop_takeD]
  cases work (args.takeD n .empty) with
  | error e => rfl
  | ok x => rw [← List.drop_drop]; exact hmore x _

def Size.arguments : Size → Nat
  | .number _ => 0
  | .star => 1

def Spec.arguments (spec : Spec) : Nat := spec.width.elim 0 Size.arguments + spec.precision.elim 0 Size.arguments

def Piece.arguments : Piece → Nat
  | .byte _ => 0
  | .directive spec _ => spec.arguments + 1
  | .cutShort spec _ => spec.arguments

theorem Takes.resolveOption (size : Option Size) :
    Takes (size.elim 0 Size.arguments) (resolveOption · size) := by
  cases size with
  | none => exact .ok none
  | some size =>
    cases size with
    | number n => exact .ok (some (n : Int))
    | star =>
      obtain ⟨work, hwork⟩ := Takes.next fun v => (integerOf v).map fun i => some i.toInt
      refine ⟨work, fun args => Eq.trans ?_ (hwork args)⟩
      change ((integerOf (Format.next args).1).bind _).bind _ = _
      dsimp only
      cases integerOf (Format.next args).1 <;> rfl

theorem Takes.resolve (spec : Spec) : Takes spec.arguments spec.resolve :=
  (Takes.resolveOption spec.width).bind fun width => (Takes.resolveOption spec.precision).bind fun precision =>
    Takes.ok (spec.field width precision)

/-- A piece takes its arguments and leaves the others. -/
theorem Takes.write (p : Piece) : Takes p.arguments p.write := by
  cases p with
  | byte b => exact .ok [b]
  | directive spec letter => 
    exact (Takes.resolve spec).bind fun field => Takes.next fun v => field.write letter v
  | cutShort spec text => exact (Takes.resolve spec).bind fun _ => .ok text

theorem Piece.exists_write (p : Piece) : ∃ work : List Value → Except Fault Text, ∀ args,
    p.write args = (work (args.takeD p.arguments .empty)).map (·, args.drop p.arguments) :=
  Takes.write p

theorem writeAll_cons (p : Piece) (ps : List Piece) (args : List Value) :
    writeAll (p :: ps) args = (p.write args).bind fun r => (writeAll ps r.2).map (r.1 ++ ·) := by
  rw [writeAll]
  cases hp : p.write args with
  | error e => rfl
  | ok r => cases h : writeAll ps r.2 <;> simp [bind, Except.bind, Except.map, pure, Except.pure, h]

/-- The pieces of two formats are written one after the other, or the first fault is raised. -/
theorem writeAll_append (ps qs : List Piece) (args : List Value) :
    writeAll (ps ++ qs) args = (writeAll ps args).bind fun a =>
      (writeAll qs (args.drop (ps.map Piece.arguments).sum)).map (a ++ ·) := by
  induction ps generalizing args with
  | nil =>
    change writeAll qs args = (writeAll qs args).map ([] ++ ·)
    cases writeAll qs args <;> rfl
  | cons p ps ih =>
    obtain ⟨work, hwork⟩ := p.exists_write
    rw [List.cons_append, writeAll_cons, writeAll_cons, hwork, List.map_cons, List.sum_cons, ← List.drop_drop]
    cases work (args.takeD p.arguments .empty) with
    | error e => rfl
    | ok t =>
      change (writeAll (ps ++ qs) _).map (t ++ ·) = ((writeAll ps _).map (t ++ ·)).bind _
      rw [ih]
      cases writeAll ps (args.drop p.arguments) with
      | error e => rfl
      | ok a =>
        change ((writeAll qs _).map (a ++ ·)).map (t ++ ·) = (writeAll qs _).map (t ++ a ++ ·)
        cases writeAll qs _ with
        | error e => rfl
        | ok b => exact congrArg Except.ok (List.append_assoc ..).symm

/-- Pieces see their own arguments only, and missing ones as empty. -/
theorem writeAll_takeD (ps : List Piece) (args : List Value) :
    writeAll ps (args.takeD (ps.map Piece.arguments).sum .empty) = writeAll ps args := by
  induction ps generalizing args with
  | nil => rfl
  | cons p ps ih =>
    obtain ⟨work, hwork⟩ := p.exists_write
    rw [writeAll_cons, writeAll_cons, hwork, hwork, List.map_cons, List.sum_cons, takeD_takeD, drop_takeD]
    cases work (args.takeD p.arguments .empty) with
    | error e => rfl
    | ok t => exact congrArg (Except.map (t ++ ·)) (ih _)

theorem writeAll_bytes (t : Text) (args : List Value) : writeAll (t.map .byte) args = .ok t := by
  induction t with
  | nil => rfl
  | cons b t ih =>
    rw [List.map_cons, writeAll_cons]
    exact congrArg (Except.map ([b] ++ ·)) ih

theorem parse_doubled (t : Text) : parse (doubled t) = t.map .byte := by
  induction t with
  | nil => rw [doubled, List.flatMap_nil, parse, List.map_nil]
  | cons b t ih =>
    rw [doubled, List.flatMap_cons, List.map_cons]
    by_cases hb : b = ch '%'
    · rw [hb, if_pos rfl]
      exact (parse_percent (doubled t)).trans (congrArg _ ih)
    · rw [if_neg hb]
      exact (parse_literal hb (doubled t)).trans (congrArg _ ih)

/-! ### The arguments of an element -/

theorem arguments_sizeOf? {t : Text} (h : IsSize t) : (sizeOf? t).elim 0 Size.arguments = t.count (ch '*') := by
  by_cases hstar : t = ascii "*"
  · rw [hstar]
    rfl
  · have hcount : t.count (ch '*') = 0 := by
      refine List.count_eq_zero.2 fun hmem => ?_
      exact absurd (h.resolve_left hstar _ hmem) (by decide)
    rw [hcount, sizeOf?, if_neg hstar]
    split <;> rfl

theorem arguments_piece (e : Element) : e.piece.arguments = e.arguments := by
  cases e with
  | literal | percent => rfl
  | specification s =>
    have hprecision : s.spec.precision.elim 0 Size.arguments = (s.precision.getD []).count (ch '*') := by
      have hsize := s.isSize_precision
      rw [Specification.spec]
      cases hp : s.precision with
      | none => rfl
      | some t =>
        rw [Option.getD_some, ← arguments_sizeOf? (hsize t hp)]
        cases h : sizeOf? t <;> simp [h, Size.arguments]
    change s.spec.width.elim 0 Size.arguments + s.spec.precision.elim 0 Size.arguments + 1 = s.arguments
    rw [hprecision, Specification.arguments, ← arguments_sizeOf? s.isSize_width]
    rfl

theorem sum_arguments_pieces (f : List Element) :
    ((f.map Element.piece).map Piece.arguments).sum = argumentsOf f := by
  rw [List.map_map, argumentsOf]
  exact congrArg List.sum (List.map_congr_left fun e _ => arguments_piece e)

end Format

namespace Value

mutual
theorem kind_of_mem_flatten (v : Value) (x : Value) (hx : x ∈ flatten v) : x.kind ≠ .list := by
  cases v with
  | list items => exact kind_of_mem_flattenAll items x hx
  | _ =>
    obtain rfl := List.mem_singleton.1 hx
    simp [kind]

/-- Flattened arguments hold no list. -/
theorem kind_of_mem_flattenAll : ∀ (vs : List Value), ∀ x ∈ flattenAll vs, x.kind ≠ .list
  | v :: vs, x, hx => by
    rcases List.mem_append.1 hx with hx | hx
    · exact kind_of_mem_flatten v x hx
    · exact kind_of_mem_flattenAll vs x hx
end

theorem flattenAll_eq_self {vs : List Value} (h : ∀ v ∈ vs, v.kind ≠ .list) : flattenAll vs = vs := by
  induction vs with
  | nil => rfl
  | cons v vs ih =>
    obtain ⟨hv, hvs⟩ := List.forall_mem_cons.1 h
    rw [flattenAll, ih hvs]
    cases v with
    | list => exact absurd rfl hv
    | _ => rfl

/-- The flattened arguments that are left are not flattened again. -/
theorem flattenAll_drop_flattenAll (n : Nat) (args : List Value) :
    flattenAll ((flattenAll args).drop n) = (flattenAll args).drop n :=
  flattenAll_eq_self fun v hv => kind_of_mem_flattenAll args v (List.mem_of_mem_drop hv)

theorem format_string (t : Text) (args : List Value) :
    format (.string t :: args) = (Format.writeAll (Format.parse t) (flattenAll args)).map .string := by
  change (Format.writeAll (Format.parse t) (flattenAll args)).bind _ = _
  cases Format.writeAll (Format.parse t) (flattenAll args) <;> rfl

open Format

/-- Formatting goes from left to right. A format of whole elements in front of any other one is written first, and
the other one gets the flattened arguments that are left; what fails first fails for both. The elements see no
more arguments than they take, and empty ones where there are not enough. Doubled percent signs give a text back. -/
theorem format_append (f : List Element) (g : Text) (args : List Value) :
    (format (.string (textOf f ++ g) :: args) = do
      let a ← format (.string (textOf f) :: args)
      let b ← format (.string g :: (flattenAll args).drop (argumentsOf f))
      a.concat b) ∧
    format (.string (textOf f) :: args)
      = format (.string (textOf f) :: (flattenAll args).takeD (argumentsOf f) .empty) ∧
    ∀ t, format (.string (doubled t) :: args) = .ok (.string t) := by
  refine ⟨?_, ?_, fun t => ?_⟩
  · rw [format_string, format_string, format_string, flattenAll_drop_flattenAll, parse_elements, parse_textOf,
      writeAll_append, sum_arguments_pieces]
    cases writeAll (f.map Element.piece) (flattenAll args) with
    | error e => rfl
    | ok a => cases writeAll (parse g) ((flattenAll args).drop (argumentsOf f)) <;> rfl
  · have htaken : flattenAll ((flattenAll args).takeD (argumentsOf f) .empty)
        = (flattenAll args).takeD (argumentsOf f) .empty := by
      refine flattenAll_eq_self fun v hv => ?_
      rcases mem_takeD hv with hv | rfl
      · exact kind_of_mem_flattenAll args v hv
      · decide
    rw [format_string, format_string, htaken, parse_textOf, ← sum_arguments_pieces, writeAll_takeD]
  · rw [format_string, parse_doubled, writeAll_bytes]
    rfl

end Value

end TagFormula
