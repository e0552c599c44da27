import ScriptLexer.Proofs.TokenForm

namespace ScriptLexer

namespace Kind

def isWord : Kind → Bool
  | identifier | keyword _ => true
  | _ => false

/-- Whether a token of this kind is prolonged by one of the other kind directly behind it. -/
def mergesWith : Kind → Kind → Bool
  | identifier, next | keyword _, next => next.isWord || next == number
  | number, next => next == number
  | bang, next | equal, next | less, next | greater, next => next == equal || next == equalEqual
  | bitAnd, next => next == bitAnd || next == and
  | bitOr, next => next == bitOr || next == or
  | star, next => next == star || next == power
  | slash, next => next == slash
  | _, _ => false

theorem isWord_ofWord (word : String) : (ofWord word).isWord = true := by
  unfold ofWord
  split <;> rfl

theorem mergesWith_of_isWord {kind : Kind} (word : kind.isWord = true) (next : Kind) :
    kind.mergesWith next = true ↔ next.isWord = true ∨ next = number := by
  cases kind <;> simp_all [isWord, mergesWith]

theorem lead_eq_digit_iff {kind : Kind} : kind.lead = .digit ↔ kind = number := by
  cases kind <;> simp [lead]

theorem lead_eq_letter_iff {kind : Kind} : kind.lead = .letter ↔ kind.isWord = true := by
  cases kind <;> simp [lead, isWord]

theorem lead_eq_slash_iff {kind : Kind} : kind.lead = .slash ↔ kind = slash := by
  cases kind <;> simp [lead]

theorem lead_eq_dot_iff {kind : Kind} : kind.lead = .delimiter dot ↔ kind = dot := by
  cases kind <;> simp [lead]

theorem lead_eq_operator_iff {kind : Kind} {c : Char} {rule : Extensible}
    (extensible : extensible? c = some rule) :
    kind.lead = .operator rule ↔ kind = rule.short ∨ kind = rule.long := by
  unfold extensible? at extensible
  split at extensible <;> cases extensible <;> cases kind <;> simp [lead]

/-- An operator is told by what it becomes. -/
theorem extensible?_injective {c d : Char} {rule : Extensible} (first : extensible? c = some rule)
    (second : extensible? d = some rule) : c = d := by
  unfold extensible? at first second
  split at first <;> cases first <;> split at second <;> first | rfl | cases second

/-- The character that makes an operator longer begins operators itself, and with those it merges. -/
theorem exists_second_rule {c : Char} {rule : Extensible} (extensible : extensible? c = some rule) :
    ∃ second, extensible? rule.second = some second ∧ ∀ next : Kind,
      rule.short.mergesWith next = true ↔ next = second.short ∨ next = second.long := by
  unfold extensible? at extensible
  split at extensible <;> cases extensible <;> exact ⟨_, rfl, fun next => by simp [mergesWith]⟩

theorem single?_injective {c d : Char} {kind : Kind} (first : single? c = some kind)
    (second : single? d = some kind) : c = d := by
  unfold single? at first second
  split at first <;> cases first <;> split at second <;> first | rfl | cases second

end Kind

namespace Lexeme

/-- The characters that prolong the lexeme when one of them is directly behind it. -/
def prolongs : Lexeme → Char → Bool
  | slash, c => c == '/'
  | short _ rule _, c => c == rule.second
  | number _ _, c => c.isDigit
  | word _ _ _ _, c => isWordPart c
  | _, _ => false

/-- One character tells whether a lexeme ends, except that a point behind whole digits belongs to
them with a digit behind it. -/
theorem endsBefore_cons_iff {lexeme : Lexeme} {c : Char} {rest : List Char} :
    lexeme.EndsBefore (c :: rest) ↔ lexeme.prolongs c = false ∧
      ∀ whole, lexeme = .number whole none → c = '.' → EndsRun Char.isDigit rest := by
  cases lexeme with
  | number whole fraction =>
    constructor
    · intro ends
      refine ⟨endsRun_cons.mp ends.1, ?_⟩
      rintro digits same rfl
      cases same
      exact ends.2 rfl rest rfl
    · rintro ⟨stops, point⟩
      refine ⟨endsRun_cons.mpr stops, ?_⟩
      rintro rfl more same
      obtain ⟨rfl, rfl⟩ := List.cons.inj same
      exact point whole rfl rfl
  | _ => simp [EndsBefore, prolongs]

variable {next : Lexeme} {c : Char} {others : List Char}

/-- The first character of a token and its kind are of one class. -/
theorem lead_head (begins : next.text = c :: others) : Lead.of c = next.kind.lead :=
  (lead_of_text begins).trans next.lead_eq_kind_lead

theorem isDigit_head_iff (begins : next.text = c :: others) :
    c.isDigit = true ↔ next.kind = .number := by
  rw [← Kind.lead_eq_digit_iff, ← lead_head begins]
  constructor
  · exact lead_of_isDigit
  · intro lead
    have describes := describes_lead c
    rwa [lead] at describes

theorem isWordPart_head_iff (begins : next.text = c :: others) :
    isWordPart c = true ↔ next.kind.isWord = true ∨ next.kind = .number := by
  rw [← Kind.lead_eq_letter_iff, ← Kind.lead_eq_digit_iff, ← lead_head begins]
  have describes := describes_lead c
  constructor
  · intro part
    rw [lead_of_isWordPart part]
    split <;> simp
  · rintro (lead | lead) <;> rw [lead] at describes
    · exact isWordPart_of_isWordStart describes
    · exact isWordPart_of_isDigit describes

theorem slash_head_iff (begins : next.text = c :: others) : c = '/' ↔ next.kind = .slash := by
  rw [← Kind.lead_eq_slash_iff, ← lead_head begins]
  constructor
  · rintro rfl
    rfl
  · intro lead
    have describes := describes_lead c
    rwa [lead] at describes

theorem dot_head_iff (begins : next.text = c :: others) : c = '.' ↔ next.kind = .dot := by
  rw [← Kind.lead_eq_dot_iff, ← lead_head begins]
  constructor
  · rintro rfl
    rfl
  · intro lead
    have describes := describes_lead c
    rw [lead] at describes
    exact Kind.single?_injective describes rfl

theorem operator_head_iff {d : Char} {rule : Kind.Extensible} (begins : next.text = c :: others)
    (extensible : Kind.extensible? d = some rule) :
    c = d ↔ next.kind = rule.short ∨ next.kind = rule.long := by
  rw [← Kind.lead_eq_operator_iff extensible, ← lead_head begins]
  constructor
  · rintro rfl
    exact lead_of_extensible? extensible
  · intro lead
    have describes := describes_lead c
    rw [lead] at describes
    exact Kind.extensible?_injective describes extensible

/-- Whether a token prolongs the one before it is told by their kinds. -/
theorem prolongs_head_iff (lexeme : Lexeme) (begins : next.text = c :: others) :
    lexeme.prolongs c = true ↔ lexeme.kind.mergesWith next.kind = true := by
  cases lexeme with
  | delimiter d kind single =>
    unfold Kind.single? at single
    split at single <;> cases single <;> rfl
  | slash => simpa [prolongs, kind, Kind.mergesWith] using slash_head_iff begins
  | short d rule extensible =>
    obtain ⟨second, secondExtensible, merges⟩ := Kind.exists_second_rule extensible
    rw [kind, merges, ← operator_head_iff begins secondExtensible]
    exact beq_iff_eq
  | long d rule extensible =>
    unfold Kind.extensible? at extensible
    split at extensible <;> cases extensible <;> rfl
  | string contents noQuote => rfl
  | number whole fraction => simpa [prolongs, kind, Kind.mergesWith] using isDigit_head_iff begins
  | word first parts start inside =>
    rw [kind, Kind.mergesWith_of_isWord (Kind.isWord_ofWord _)]
    exact isWordPart_head_iff begins

/-- A number is whole exactly when there is no point in its text. -/
theorem isWhole_iff {lexeme : Lexeme} :
    (∃ whole, lexeme = .number whole none) ↔ lexeme.kind = .number ∧ '.' ∉ lexeme.text := by
  constructor
  · rintro ⟨whole, rfl⟩
    exact ⟨rfl, fun point => absurd (whole.isDigit_of_mem _ point) (by decide)⟩
  · rintro ⟨isNumber, noPoint⟩
    have lead := lexeme.lead_eq_kind_lead
    rw [isNumber] at lead
    cases lexeme with
    | number whole fraction =>
      cases fraction with
      | none => exact ⟨whole, rfl⟩
      | some fraction => exact absurd (by simp [text, numberText]) noPoint
    | _ => cases lead

/-- The text of a point is the point. -/
theorem text_of_kind_dot {lexeme : Lexeme} (isDot : lexeme.kind = .dot) : lexeme.text = ['.'] := by
  have lead := lexeme.lead_eq_kind_lead
  rw [isDot] at lead
  cases lexeme with
  | delimiter c kind single =>
    obtain rfl : kind = .dot := isDot
    rw [text, Kind.single?_injective single (rfl : Kind.single? '.' = some .dot)]
  | _ => cases lead

end Lexeme

/-- The lexemes of tokens, one directly behind the other. -/
def joined (tokens : List Token) : List Char := tokens.flatMap (·.lexeme.toList)

theorem joined_cons (token : Token) (tokens : List Token) :
    joined (token :: tokens) = token.lexeme.toList ++ joined tokens := rfl

/-- Somewhere in the list a token is prolonged by the one behind it, or digits without a point have
a point and a number behind them. -/
def Collides : List Token → Prop
  | first :: second :: after =>
    first.kind.mergesWith second.kind = true ∨
      (first.kind = .number ∧ '.' ∉ first.lexeme.toList ∧ second.kind = .dot ∧
        ∃ third ∈ after.head?, third.kind = .number) ∨
      Collides (second :: after)
  | _ => False

namespace Segment

/-- A lexeme in front of others ends if it does not merge with the first of them, and is not made a
fraction by the first two. -/
theorem endsBefore_lexemes_iff {lexeme next : Lexeme} {after : List Lexeme} :
    lexeme.EndsBefore (sourceOf ((next :: after).map token)) ↔
      ¬lexeme.kind.mergesWith next.kind = true ∧
      ¬(lexeme.kind = .number ∧ '.' ∉ lexeme.text ∧ next.kind = .dot ∧
        ∃ third ∈ after.head?, third.kind = .number) := by
  obtain ⟨c, others, begins⟩ := List.exists_cons_of_ne_nil next.text_ne_nil
  have cut : sourceOf ((next :: after).map token) = c :: (others ++ sourceOf (after.map token)) := by
    rw [List.map_cons, sourceOf_cons, text, begins, List.cons_append]
  rw [cut, Lexeme.endsBefore_cons_iff, ← Bool.not_eq_true, Lexeme.prolongs_head_iff lexeme begins]
  refine and_congr_right fun _ => ⟨?_, ?_⟩
  · rintro point ⟨isNumber, noPoint, isDot, third, isThird, isPlaces⟩
    obtain ⟨whole, rfl⟩ := Lexeme.isWhole_iff.mpr ⟨isNumber, noPoint⟩
    have dotText := Lexeme.text_of_kind_dot isDot
    rw [begins] at dotText
    obtain ⟨rfl, rfl⟩ := List.cons.inj dotText
    have ends := point whole rfl rfl
    obtain ⟨later, rfl⟩ := List.head?_eq_some_iff.mp isThird
    obtain ⟨digit, digits, placesText⟩ := List.exists_cons_of_ne_nil third.text_ne_nil
    have isDigit := (Lexeme.isDigit_head_iff placesText).mpr isPlaces
    rw [List.nil_append, List.map_cons, sourceOf_cons, text, placesText, List.cons_append,
      endsRun_cons, isDigit] at ends
    cases ends
  · rintro noPlaces whole rfl rfl
    have isDot := (Lexeme.dot_head_iff begins).mp rfl
    have dotText := Lexeme.text_of_kind_dot isDot
    rw [begins] at dotText
    obtain ⟨-, rfl⟩ := List.cons.inj dotText
    obtain ⟨isNumber, noPoint⟩ := Lexeme.isWhole_iff.mp ⟨whole, rfl⟩
    cases after with
    | nil => exact endsRun_nil
    | cons third later =>
      obtain ⟨d, others, thirdText⟩ := List.exists_cons_of_ne_nil third.text_ne_nil
      rw [List.nil_append, List.map_cons, sourceOf_cons, text, thirdText, List.cons_append, endsRun_cons]
      apply Bool.eq_false_iff.mpr
      intro isDigit
      have isPlaces := (Lexeme.isDigit_head_iff thirdText).mp isDigit
      exact noPlaces ⟨isNumber, noPoint, isDot, third, rfl, isPlaces⟩

/-- Tokens are cut where they are joined exactly when they do not collide. -/
theorem separated_iff_not_collides {tokens : List Token} {lexemes : List Lexeme}
    (same : tokens.map Token.content = lexemes.map Lexeme.content) :
    Separated (lexemes.map token) ↔ ¬Collides tokens := by
  induction lexemes generalizing tokens with
  | nil =>
    obtain rfl := List.map_eq_nil_iff.mp same
    simp [Separated, Collides]
  | cons lexeme lexemes ih =>
    obtain ⟨first, rest, rfl, sameFirst, sameRest⟩ := List.map_eq_cons_iff.mp same
    cases lexemes with
    | nil =>
      obtain rfl := List.map_eq_nil_iff.mp sameRest
      simp [Separated, Collides, Segment.EndsBefore, lexeme.endsBefore_nil]
    | cons next after =>
      obtain ⟨second, later, rfl, sameSecond, sameLater⟩ := List.map_eq_cons_iff.mp sameRest
      have sameNumbers : (∃ third ∈ later.head?, third.kind = .number) ↔
          ∃ third ∈ after.head?, third.kind = .number := by
        cases after with
        | nil =>
          obtain rfl := List.map_eq_nil_iff.mp sameLater
          simp
        | cons places others =>
          obtain ⟨third, _, rfl, sameThird, -⟩ := List.map_eq_cons_iff.mp sameLater
          simp [Token.kind_eq_of_content_eq sameThird]
      rw [List.map_cons, separated_cons, ih sameRest, Segment.EndsBefore, endsBefore_lexemes_iff,
        Collides, not_or, not_or, and_assoc, Token.kind_eq_of_content_eq sameFirst,
        Token.kind_eq_of_content_eq sameSecond, Token.text_eq_of_content_eq sameFirst, sameNumbers]

/-- Lexemes one behind the other yield their contents. -/
theorem exists_items_lexemes (line : Nat) (lexemes : List Lexeme) :
    ∃ found : List Token, items line (lexemes.map token) = found.map Item.token ∧
      found.map Token.content = lexemes.map Lexeme.content := by
  induction lexemes generalizing line with
  | nil => exact ⟨[], rfl, rfl⟩
  | cons lexeme lexemes ih =>
    obtain ⟨found, yields, same⟩ := ih ((token lexeme).lineAfter line)
    let first : Token := ⟨lexeme.kind, String.ofList lexeme.text, lexeme.literal, line⟩
    refine ⟨first :: found, ?_, ?_⟩
    · rw [List.map_cons, List.map_cons, items, yields]
      rfl
    · rw [List.map_cons, List.map_cons, same]
      rfl

/-- Segments that yield tokens alone have room for their lexemes, and nothing is skipped between
lexemes that fill the source. -/
theorem exists_lexemes_of_items {line : Nat} {segments : List Segment} {found : List Token}
    (yields : items line segments = found.map Item.token) :
    (joined found).length ≤ (sourceOf segments).length ∧
      ((joined found).length = (sourceOf segments).length → ∃ lexemes : List Lexeme,
        segments = lexemes.map token ∧ found.map Token.content = lexemes.map Lexeme.content) := by
  induction segments generalizing line found with
  | nil =>
    obtain rfl := List.map_eq_nil_iff.mp yields.symm
    exact ⟨Nat.le_refl _, fun _ => ⟨[], rfl, rfl⟩⟩
  | cons segment segments ih =>
    have total : (sourceOf (segment :: segments)).length =
        segment.text.length + (sourceOf segments).length := by
      rw [sourceOf_cons, List.length_append]
    cases own : segment.item? line with
    | none =>
      -- A piece without an item takes room that the lexemes would need to fill the source.
      rw [items, own] at yields
      have positive := List.length_pos_iff.mpr segment.text_ne_nil
      have bound := (ih yields).1
      exact ⟨by omega, fun tight => absurd tight (by omega)⟩
    | some item =>
      rw [items, own] at yields
      obtain ⟨first, others, rfl, sameFirst, sameOthers⟩ := List.map_eq_cons_iff.mp yields.symm
      rw [← sameFirst] at own
      obtain ⟨lexeme, rfl, shape⟩ := exists_lexeme_of_item? own
      have content : first.content = lexeme.content := by
        rw [shape]
        rfl
      have length : (joined (first :: others)).length = lexeme.text.length + (joined others).length := by
        rw [joined_cons, List.length_append, Token.text_eq_of_content_eq content]
      obtain ⟨bound, fill⟩ := ih sameOthers.symm
      rw [text] at total
      refine ⟨by omega, fun tight => ?_⟩
      obtain ⟨lexemes, rfl, contents⟩ := fill (by omega)
      exact ⟨lexeme :: lexemes, rfl, by rw [List.map_cons, List.map_cons, content, contents]⟩

end Segment

/-- What is joined does not depend on the lines. -/
theorem joined_eq_flatMap_content (tokens : List Token) :
    joined tokens = (tokens.map Token.content).flatMap (·.2.1.toList) := by
  rw [List.flatMap_map]
  rfl

theorem Segment.sourceOf_lexemes (lexemes : List Lexeme) :
    sourceOf (lexemes.map token) = (lexemes.map Lexeme.content).flatMap (·.2.1.toList) := by
  rw [sourceOf, List.flatMap_map, List.flatMap_map]
  simp [text, Lexeme.content]

/-- Scanned tokens are lexemes with lines. -/
theorem exists_lexemes_of_scanned {tokens : List Token}
    (scanned : ∀ token ∈ tokens, token.kind ≠ .endOfFile ∧
      ∃ source : String, .token token ∈ (Scanner.ofString source).items) :
    ∃ lexemes : List Lexeme, tokens.map Token.content = lexemes.map Lexeme.content := by
  induction tokens with
  | nil => exact ⟨[], rfl⟩
  | cons token tokens ih =>
    obtain ⟨lexemes, contents⟩ := ih fun other member => scanned other (List.mem_cons_of_mem _ member)
    obtain ⟨notEnd, source, inItems⟩ := scanned token (List.mem_cons_self ..)
    obtain ⟨lexeme, shape⟩ := Scanner.exists_lexeme_of_mem_items inItems notEnd
    refine ⟨lexeme :: lexemes, ?_⟩
    rw [List.map_cons, List.map_cons, contents, shape]
    rfl

/-- Joined tokens are scanned as the same tokens and without an error exactly when no two of them
merge with each other and no three make a fraction. -/
theorem items_joined_iff (tokens : List Token)
    (scanned : ∀ token ∈ tokens, token.kind ≠ .endOfFile ∧
      ∃ source : String, .token token ∈ (Scanner.ofString source).items) :
    (∃ (found : List Token) (line : Nat),
      (Scanner.ofString (String.ofList (joined tokens))).items =
        found.map Item.token ++ [.token (.endOfFile line)] ∧
      found.map Token.content = tokens.map Token.content) ↔
    ¬Collides tokens := by
  constructor
  · rintro ⟨found, line, yields, same⟩
    obtain ⟨segments, text, separated⟩ := Segment.exists_segments (joined tokens)
    have source : Segment.sourceOf segments = (String.ofList (joined tokens)).toList := by
      rw [text, String.toList_ofList]
    have tokensOnly : Segment.items 1 segments = found.map Item.token :=
      List.append_inj_left' ((Scanner.items_ofString source separated).symm.trans yields) rfl
    -- The tokens found have the lexemes of those joined, so nothing else is in the source.
    obtain ⟨-, fill⟩ := Segment.exists_lexemes_of_items tokensOnly
    have sameJoined : joined found = joined tokens := by
      rw [joined_eq_flatMap_content, same, ← joined_eq_flatMap_content]
    obtain ⟨lexemes, rfl, contents⟩ := fill (by rw [text, sameJoined])
    exact (Segment.separated_iff_not_collides (same.symm.trans contents)).mp separated
  · intro apart
    obtain ⟨lexemes, contents⟩ := exists_lexemes_of_scanned scanned
    have separated := (Segment.separated_iff_not_collides contents).mpr apart
    obtain ⟨found, yields, same⟩ := Segment.exists_items_lexemes 1 lexemes
    have source : Segment.sourceOf (lexemes.map .token) = (String.ofList (joined tokens)).toList := by
      rw [Segment.sourceOf_lexemes, ← contents, ← joined_eq_flatMap_content, String.toList_ofList]
    have whole := Scanner.items_ofString source separated
    rw [yields] at whole
    exact ⟨found, _, whole, same.trans contents.symm⟩

/-- A comment mark in a string opens nothing, and a point behind a number stays apart from a name. From
the digits of another number it does not. -/
theorem items_joined_iff_point :
    (∃ (found : List Token) (line : Nat), (Scanner.ofString "12.x\"//\"=!=").items =
        found.map Item.token ++ [.token (.endOfFile line)] ∧
      found.map Token.content =
        [(.number, "12", some (.number (.ofDecimal ⟨12, 0⟩))), (.dot, ".", none), (.identifier, "x", none),
          (.string, "\"//\"", some (.string "//")), (.equal, "=", none), (.bangEqual, "!=", none)]) ∧
    ¬∃ (found : List Token) (line : Nat), (Scanner.ofString "12.5").items =
        found.map Item.token ++ [.token (.endOfFile line)] ∧
      found.map Token.content =
        [(.number, "12", some (.number (.ofDecimal ⟨12, 0⟩))), (.dot, ".", none),
          (.number, "5", some (.number (.ofDecimal ⟨5, 0⟩)))] := by
  have spaced : (Scanner.ofString "12 . x \"//\" = != 5").items =
      [.token ⟨.number, "12", some (.number (.ofDecimal ⟨12, 0⟩)), 1⟩, .token ⟨.dot, ".", none, 1⟩,
        .token ⟨.identifier, "x", none, 1⟩, .token ⟨.string, "\"//\"", some (.string "//"), 1⟩,
        .token ⟨.equal, "=", none, 1⟩, .token ⟨.bangEqual, "!=", none, 1⟩,
        .token ⟨.number, "5", some (.number (.ofDecimal ⟨5, 0⟩)), 1⟩, .token (.endOfFile 1)] := by
    decide +kernel
  have scanned (tokens : List Token) (notEnd : ∀ token ∈ tokens, token.kind ≠ .endOfFile)
      (among : ∀ token ∈ tokens, .token token ∈ (Scanner.ofString "12 . x \"//\" = != 5").items) :
      ∀ token ∈ tokens, token.kind ≠ .endOfFile ∧
        ∃ source : String, .token token ∈ (Scanner.ofString source).items :=
    fun token member => ⟨notEnd token member, _, among token member⟩
  rw [spaced] at scanned
  constructor
  · refine (items_joined_iff
      [⟨.number, "12", some (.number (.ofDecimal ⟨12, 0⟩)), 1⟩, ⟨.dot, ".", none, 1⟩,
        ⟨.identifier, "x", none, 1⟩, ⟨.string, "\"//\"", some (.string "//"), 1⟩,
        ⟨.equal, "=", none, 1⟩, ⟨.bangEqual, "!=", none, 1⟩]
      (scanned _ (by simp) (by simp))).mpr ?_
    simp [Collides, Kind.mergesWith, Kind.isWord]
  · intro together
    have apart := (items_joined_iff
      [⟨.number, "12", some (.number (.ofDecimal ⟨12, 0⟩)), 1⟩, ⟨.dot, ".", none, 1⟩,
        ⟨.number, "5", some (.number (.ofDecimal ⟨5, 0⟩)), 1⟩]
      (scanned _ (by simp) (by simp))).mp together
    exact apart (by simp [Collides])

end ScriptLexer
