import ScriptLexer.Proofs.Transcript

namespace ScriptLexer

namespace Binary64

/-- Among such numbers `==` is the equality of bits. -/
structure IsUnsigned (x : Binary64) : Prop where
  isNumber : x.isNaN = false
  noSign : x.isNegative = false

theorem isUnsigned_ofRatio (num den : Nat) : (ofRatio num den).IsUnsigned := by
  have bound := nearestMagnitude_le num den
  have top : infinityMagnitude < 2 ^ magnitudeBits := by decide
  refine ⟨?_, isNegative_ofMagnitude (Nat.lt_of_le_of_lt bound top)⟩
  simp only [isNaN, exponent, fraction, magnitude_ofRatio, infinityMagnitude, topExponent,
    fractionBits] at bound ⊢
  generalize nearestMagnitude num den = magnitude at bound ⊢
  simp only [Bool.and_eq_false_iff, beq_eq_false_iff_ne, bne_eq_false_iff_eq]
  omega

theorem IsUnsigned.beq_iff {x y : Binary64} (hx : x.IsUnsigned) (hy : y.IsUnsigned) :
    (x == y) = true ↔ x = y := by
  have bits (z : Binary64) (unsigned : z.IsUnsigned) : z.bits.toNat = z.magnitude := by
    have noSign := of_decide_eq_false unsigned.noSign
    exact (Nat.mod_eq_of_lt (Nat.lt_of_not_le noSign)).symm
  have eq_of_bits : x.bits = y.bits → x = y := congrArg Binary64.mk
  show numericEq x y = true ↔ x = y
  simp only [numericEq, hx.isNumber, hy.isNumber, Bool.not_false, Bool.true_and, Bool.or_eq_true,
    Bool.and_eq_true, beq_iff_eq]
  constructor
  · rintro (same | ⟨zero, otherZero⟩)
    · exact eq_of_bits same
    · refine eq_of_bits (UInt64.toNat_inj.mp ?_)
      rw [bits x hx, bits y hy, zero, otherZero]
  · rintro rfl
    exact Or.inl rfl

end Binary64

theorem literal_beq_iff_eq {literal other : Option Literal}
    (unsigned : ∀ value, literal = some (.number value) → value.IsUnsigned)
    (otherUnsigned : ∀ value, other = some (.number value) → value.IsUnsigned) :
    (literal == other) = true ↔ literal = other := by
  match literal, other with
  | none, none | none, some _ | some _, none => simp
  | some (.number x), some (.number y) =>
    rw [Option.some.injEq, Literal.number.injEq]
    exact (unsigned x rfl).beq_iff (otherUnsigned y rfl)
  | some (.string contents), some (.string others) =>
    rw [Option.some.injEq, Literal.string.injEq]
    exact @beq_iff_eq String _ _ contents others
  | some (.number _), some (.string _) | some (.string _), some (.number _) =>
    exact ⟨nofun, nofun⟩

theorem list_beq_iff_eq {α : Type} [BEq α] {items others : List α}
    (exact : ∀ item ∈ items, ∀ other ∈ others, (item == other) = true ↔ item = other) :
    (items == others) = true ↔ items = others := by
  induction items generalizing others with
  | nil => cases others <;> simp
  | cons item items ih =>
    cases others with
    | nil => simp
    | cons other others =>
      have first := exact item List.mem_cons_self other List.mem_cons_self
      have later := ih fun x inItems y inOthers =>
        exact x (List.mem_cons_of_mem item inItems) y (List.mem_cons_of_mem other inOthers)
      rw [List.cons_beq_cons, Bool.and_eq_true, first, later, List.cons.injEq]

theorem equivalence_of_iff_eq {α β : Type} {relation : α → α → Prop} {value : α → β}
    (iff : ∀ x y, relation x y ↔ value x = value y) : Equivalence relation where
  refl x := (iff x x).mpr rfl
  symm same := (iff _ _).mpr ((iff _ _).mp same).symm
  trans same next := (iff _ _).mpr (((iff _ _).mp same).trans ((iff _ _).mp next))

namespace Token

theorem beq_eq (token other : Token) :
    (token == other) = (token.kind == other.kind && (token.lexeme == other.lexeme &&
      (token.literal == other.literal && token.line == other.line))) := rfl

variable {token other : Token}

theorem IsFound.isUnsigned (found : token.IsFound) {value : Binary64}
    (literal : token.literal = some (.number value)) : value.IsUnsigned := by
  rcases found.cases with ⟨lexeme, form⟩ | form
  · rw [form] at literal
    cases lexeme with
    | number whole fraction =>
      cases literal
      exact Binary64.isUnsigned_ofRatio _ _
    | _ => cases literal
  · rw [form] at literal
    cases literal

theorem IsFound.beq_iff (found : token.IsFound) (otherFound : other.IsFound) :
    (token == other) = true ↔ token = other := by
  have literals := literal_beq_iff_eq (fun _ literal => found.isUnsigned literal)
    fun _ literal => otherFound.isUnsigned literal
  obtain ⟨kind, lexeme, literal, line⟩ := token
  obtain ⟨otherKind, otherLexeme, otherLiteral, otherLine⟩ := other
  rw [beq_eq, mk.injEq]
  simp only [Bool.and_eq_true, beq_iff_eq, literals]

theorem IsFound.eq_iff (found : token.IsFound) (otherFound : other.IsFound) :
    token = other ↔ token.lexeme = other.lexeme ∧ token.line = other.line := by
  constructor
  · rintro rfl
    exact ⟨rfl, rfl⟩
  · rintro ⟨lexemes, lines⟩
    have contents := found.content_eq_of_lexeme_eq otherFound lexemes
    obtain ⟨kind, lexeme, literal, line⟩ := token
    obtain ⟨otherKind, otherLexeme, otherLiteral, otherLine⟩ := other
    simp only [content, Prod.mk.injEq] at contents
    obtain ⟨rfl, rfl, rfl⟩ := contents
    obtain rfl : line = otherLine := lines
    rfl

end Token

theorem LexicalError.IsFound.eq_iff {error other : LexicalError} (found : error.IsFound)
    (otherFound : other.IsFound) : error = other ↔ error.toText = other.toText := by
  constructor
  · exact congrArg toText
  · intro same
    refine (readsBack error other [] [] found otherFound ?_).1
    rw [same]

theorem scan_beq_iff_eq (source other : String) :
    (scan source == scan other) = true ↔ scan source = scan other := by
  have tokens : ((scan source).1 == (scan other).1) = true ↔ (scan source).1 = (scan other).1 :=
    list_beq_iff_eq fun token member otherToken otherMember =>
      Token.IsFound.beq_iff ⟨source, member⟩ ⟨other, otherMember⟩
  show ((scan source).1 == (scan other).1 && (scan source).2 == (scan other).2) = true ↔ _
  rw [Bool.and_eq_true, tokens, beq_iff_eq, Prod.ext_iff]

/-- Of what was found, a token is known by its text and its line, an error by its message, and `==` is
an equivalence on both and on whole scans. -/
theorem equality_by_text :
    (∀ token other : Token, token.IsFound → other.IsFound →
      ((token == other) = true ↔ token.lexeme = other.lexeme ∧ token.line = other.line) ∧
      (token.lexeme = other.lexeme → token.kind = other.kind ∧ token.literal = other.literal)) ∧
    (∀ token : Token, token.IsFound →
      (token.lexeme = "" ↔ token.kind = .endOfFile) ∧
      ∀ value, token.literal = some (.number value) → value.isNaN = false ∧ value.isNegative = false) ∧
    (∀ error other : LexicalError, error.IsFound → other.IsFound →
      ((error == other) = true ↔ error.toText = other.toText)) ∧
    Equivalence (fun token other : {token : Token // token.IsFound} => (token.1 == other.1) = true) ∧
    Equivalence (fun error other : {error : LexicalError // error.IsFound} =>
      (error.1 == other.1) = true) ∧
    Equivalence (fun source other : String => (scan source == scan other) = true) := by
  refine ⟨fun token other found otherFound => ⟨?_, fun lexemes => ?_⟩, fun token found => ⟨?_, ?_⟩,
    fun error other found otherFound => ?_, ?_, ?_, ?_⟩
  · rw [found.beq_iff otherFound, found.eq_iff otherFound]
  · have contents := found.content_eq_of_lexeme_eq otherFound lexemes
    simp only [Token.content, Prod.mk.injEq] at contents
    exact ⟨contents.1, contents.2.2⟩
  · exact found.lexeme_eq_empty_iff
  · exact fun value literal => ⟨(found.isUnsigned literal).isNumber, (found.isUnsigned literal).noSign⟩
  · rw [beq_iff_eq, found.eq_iff otherFound]
  · exact equivalence_of_iff_eq fun token other => token.2.beq_iff other.2
  · exact equivalence_of_iff_eq fun error other => @beq_iff_eq LexicalError _ _ error.1 other.1
  · exact equivalence_of_iff_eq scan_beq_iff_eq

/-- Two spellings of zero have equal values, and yet the tokens differ. -/
theorem equality_by_text_point :
    ∃ token other : Token, token ∈ (scan "0").1 ∧ other ∈ (scan "0.0").1 ∧
      (token.literal == other.literal) = true ∧ token.line = other.line ∧
      ¬(token == other) = true ∧ (token == token) = true := by
  have first : (scan "0").1 = [⟨.number, "0", some (.number ⟨0⟩), 1⟩, .endOfFile 1] := by
    decide +kernel
  have second : (scan "0.0").1 = [⟨.number, "0.0", some (.number ⟨0⟩), 1⟩, .endOfFile 1] := by
    decide +kernel
  have inFirst : ⟨.number, "0", some (.number ⟨0⟩), 1⟩ ∈ (scan "0").1 := by
    rw [first]
    exact List.mem_cons_self
  have inSecond : ⟨.number, "0.0", some (.number ⟨0⟩), 1⟩ ∈ (scan "0.0").1 := by
    rw [second]
    exact List.mem_cons_self
  have byText := equality_by_text.1
  refine ⟨_, _, inFirst, inSecond, by decide +kernel, rfl, fun same => ?_, ?_⟩
  · have lexemes := ((byText _ _ ⟨_, inFirst⟩ ⟨_, inSecond⟩).1.mp same).1
    exact absurd lexemes (by decide)
  · exact (byText _ _ ⟨_, inFirst⟩ ⟨_, inFirst⟩).1.mpr ⟨rfl, rfl⟩

end ScriptLexer
