import EVdeSwitch.Config.CJsonLiterals

/-!
# CJsonReading — what the parser accepts

In a text with a NUL at its end every function of the parser stays inside of the text and comes to
an end, and what it accepts is what the grammar says.
-/

namespace EVdeSwitch
namespace Config

open EVdeSwitch.Lib

/-! ## Texts with their terminator -/

/-- The last byte is NUL. -/
def Terminated (text : List UInt8) : Prop :=
  text.getLast? = some 0

section Texts

variable {c : UInt8} {text suffix : List UInt8} {buffer : ParseBuffer}

theorem Terminated.exists_cons (h : Terminated text) : ∃ c rest, text = c :: rest := by
  cases text with
  | nil => cases h
  | cons c rest => exact ⟨c, rest, rfl⟩

theorem Terminated.of_suffix (h : Terminated text) (hsuffix : suffix <:+ text)
    (hne : suffix ≠ []) : Terminated suffix := by
  obtain ⟨before, rfl⟩ := hsuffix
  rwa [Terminated, List.getLast?_append_of_ne_nil before hne] at h

theorem Terminated.tail (h : Terminated (c :: text)) (hc : c ≠ 0) : Terminated text := by
  rcases text with _ | ⟨c', text⟩
  · exact absurd (Option.some.inj h) hc
  · exact h.of_suffix (List.suffix_cons _ _) (List.cons_ne_nil _ _)

theorem Terminated.drop : ∀ {text : List UInt8} (n : Nat), Terminated text →
    (∀ c ∈ text.take n, c ≠ 0) → Terminated (text.drop n)
  | _, 0, h, _ => h
  | [], _ + 1, h, _ => h
  | c :: _, n + 1, h, hne =>
      (h.tail (hne c List.mem_cons_self)).drop n fun c' hc' => hne c' (List.mem_cons_of_mem _ hc')

namespace ParseBuffer

theorem rest_advance (buffer : ParseBuffer) (count : Nat) :
    (buffer.advance count).rest = buffer.rest.drop count :=
  List.drop_drop.symm

theorem offset_lt_of_rest (h : buffer.rest = c :: text) : buffer.offset < buffer.content.length := by
  refine Nat.lt_of_not_le fun hle => ?_
  rw [rest, List.drop_eq_nil_of_le hle] at h
  cases h

theorem canAccess_of_rest (h : buffer.rest = c :: text) : buffer.canAccessAtIndex 0 = true :=
  decide_eq_true (offset_lt_of_rest h)

theorem byteAt_of_rest (h : buffer.rest = c :: text) : buffer.byteAt 0 = .ok c := by
  have hget : buffer.content[buffer.offset + 0]? = some c := by
    rw [← List.getElem?_drop]
    exact congrArg (·[0]?) h
  rw [byteAt, hget]

theorem blanks_drop : ∀ (text : List UInt8) (n : Nat),
    n ≤ (text.takeWhile (· ≤ 32)).length → Blanks IsBlank text (text.drop n)
  | text, 0, _ => .done text
  | [], n + 1, h => absurd h (Nat.not_succ_le_zero n)
  | c :: text, n + 1, h => by
      by_cases hc : c ≤ 32
      · rw [List.takeWhile_cons, if_pos (decide_eq_true hc)] at h
        exact .skip hc (blanks_drop text n (Nat.le_of_succ_le_succ h))
      · rw [List.takeWhile_cons, if_neg (by rwa [decide_eq_true_eq])] at h
        exact absurd h (Nat.not_succ_le_zero n)

theorem takeWhile_of_blanks {rest : List UInt8} (hc : ¬IsBlank c)
    (h : Blanks IsBlank rest (c :: text)) :
    rest.drop (rest.takeWhile (· ≤ 32)).length = c :: text := by
  generalize hbehind : c :: text = behind at h
  induction h with
  | done =>
      rw [← hbehind, List.takeWhile_cons, if_neg (by rwa [decide_eq_true_eq])]
      rfl
  | @skip blank _ _ hblank _ ih =>
      have hle : blank ≤ 32 := hblank
      rw [List.takeWhile_cons, if_pos (decide_eq_true hle)]
      exact ih hbehind

/-- There are blanks from here to there, and it is not the end of the text. -/
structure Skips (buffer next : ParseBuffer) : Prop where
  content : next.content = buffer.content
  offset_le : buffer.offset ≤ next.offset
  terminated : Terminated next.rest
  blanks : Blanks IsBlank buffer.rest next.rest

theorem skips_skipWhitespace (h : Terminated buffer.rest) : Skips buffer buffer.skipWhitespace := by
  obtain ⟨c, text, hrest⟩ := h.exists_cons
  have hlt := offset_lt_of_rest hrest
  have hlength : buffer.rest.length = buffer.content.length - buffer.offset := List.length_drop
  have hle : (buffer.rest.takeWhile (· ≤ 32)).length ≤ buffer.rest.length :=
    (List.takeWhile_prefix _).length_le
  have hskips (n : Nat) (hn : n ≤ (buffer.rest.takeWhile (· ≤ 32)).length)
      (hinside : n < buffer.rest.length) : Skips buffer (buffer.advance n) := by
    refine ⟨rfl, Nat.le_add_right _ n, ?_, ?_⟩
    · rw [rest_advance]
      exact h.of_suffix (List.drop_suffix n _)
        (List.drop_eq_nil_iff.not.mpr (Nat.not_le.mpr hinside))
    · rw [rest_advance]
      exact blanks_drop _ n hn
  rw [skipWhitespace, if_pos (canAccess_of_rest hrest)]
  generalize (buffer.rest.takeWhile (· ≤ 32)).length = blanks at hle hskips
  by_cases hend : buffer.offset + blanks = buffer.content.length
  · -- back to the NUL
    have hback : buffer.offset + blanks - 1 = buffer.offset + (blanks - 1) := by omega
    simp only [if_pos hend, hback]
    exact hskips _ (Nat.sub_le _ _) (by omega)
  · simp only [if_neg hend]
    exact hskips _ (le_refl _) (by omega)

theorem skipWhitespace_of_blanks (hc : ¬IsBlank c) (h : Blanks IsBlank buffer.rest (c :: text)) :
    buffer.skipWhitespace.rest = c :: text := by
  have hbehind := takeWhile_of_blanks hc h
  obtain ⟨first, behind, hrest⟩ : ∃ first behind, buffer.rest = first :: behind := by
    cases hrest : buffer.rest with
    | nil =>
        rw [hrest] at hbehind
        cases hbehind
    | cons first behind => exact ⟨first, behind, rfl⟩
  rw [skipWhitespace, if_pos (canAccess_of_rest hrest)]
  generalize (buffer.rest.takeWhile (· ≤ 32)).length = blanks at hbehind
  have hnext : (buffer.advance blanks).rest = c :: text := (rest_advance _ _).trans hbehind
  have hne : buffer.offset + blanks ≠ buffer.content.length :=
    Nat.ne_of_lt (offset_lt_of_rest hnext)
  simp only [if_neg hne]
  exact hnext

end ParseBuffer

end Texts

/-! ## Parsers and grammars -/

section Reading

variable {α β ν : Type} {env : ParseEnv ν} {grammar : Grammar UInt8 α}

/-- From here to there the text is what the grammar says. -/
structure Reads (grammar : Grammar UInt8 α) (buffer : ParseBuffer) (item : α)
    (behind : ParseBuffer) : Prop where
  content : behind.content = buffer.content
  offset_lt : buffer.offset < behind.offset
  terminated : Terminated behind.rest
  reads : grammar buffer.rest item behind.rest

/-- The parser comes to an end, and has read what the grammar says or nothing. -/
def ReadsOrFails (grammar : Grammar UInt8 α) (buffer : ParseBuffer) (result : Parse α) : Prop :=
  (∃ behind, result = .ok (none, behind) ∧ behind.content = buffer.content) ∨
    ∃ item behind, result = .ok (some item, behind) ∧ Reads grammar buffer item behind

/-- What the parser accepts is in the grammar. -/
def Sound (grammar : Grammar UInt8 α) (parse : ParseBuffer → Parse α) : Prop :=
  ∀ buffer, Terminated buffer.rest → ReadsOrFails grammar buffer (parse buffer)

/-- What is in the grammar the parser accepts. -/
def Complete (grammar : Grammar UInt8 α) (parse : ParseBuffer → Parse α) : Prop :=
  ∀ buffer item rest, Terminated buffer.rest → grammar buffer.rest item rest →
    ∃ behind, parse buffer = .ok (some item, behind) ∧ Reads grammar buffer item behind ∧
      behind.rest = rest

theorem Sound.reads {parse : ParseBuffer → Parse α} {buffer behind : ParseBuffer} {item : α}
    (h : Sound grammar parse) (hterminated : Terminated buffer.rest)
    (hparse : parse buffer = .ok (some item, behind)) : Reads grammar buffer item behind := by
  rcases h buffer hterminated with ⟨_, hfail, _⟩ | ⟨_, _, hread, hreads⟩
  · rw [hparse] at hfail
    cases hfail
  · rw [hparse] at hread
    cases hread
    exact hreads

theorem ReadsOrFails.map {buffer : ParseBuffer} {result : Parse α} {grammar' : Grammar UInt8 β}
    (h : ReadsOrFails grammar buffer result) (f : α → β)
    (hgrammar : ∀ text item rest, grammar text item rest → grammar' text (f item) rest) :
    ReadsOrFails grammar' buffer
      (result.map fun (item, buffer) => (item.map f, buffer)) := by
  rcases h with ⟨behind, rfl, hcontent⟩ | ⟨item, behind, rfl, hreads⟩
  · exact .inl ⟨behind, rfl, hcontent⟩
  · exact .inr ⟨f item, behind, rfl, hreads.content, hreads.offset_lt, hreads.terminated,
      hgrammar _ _ _ hreads.reads⟩

/-! ## Strings and numbers -/

theorem Scanned.exists_quote {input : List UInt8} {left units : Nat} (h : Scanned input left units) :
    ∃ rest, input.drop left = QUOTE :: rest := by
  induction h with
  | quote rest => exact ⟨rest, rfl⟩
  | plain _ _ _ ih => exact ih
  | escape c _ ih => exact ih

theorem parseString_sound : Sound ReadString (parseString env) := by
  intro buffer hterminated
  obtain ⟨c, text, hrest⟩ := hterminated.exists_cons
  have htext : buffer.content.drop (buffer.offset + 1) = text := by
    rw [← List.drop_drop]
    exact congrArg (List.drop 1) hrest
  rw [parseString, ParseBuffer.byteAt_of_rest hrest, htext]
  simp only [Except.bind]
  by_cases hquote : c ≠ QUOTE
  · exact .inl ⟨_, if_pos hquote, rfl⟩
  rw [if_neg hquote]
  obtain rfl : c = QUOTE := not_not.mp hquote
  cases hscan : scanString text with
  | none => exact .inl ⟨_, rfl, rfl⟩
  | some passed =>
      obtain ⟨count, skipped⟩ := passed
      cases hallocate : env.allocates buffer.allocated with
      | false =>
          refine .inl ⟨{ buffer with allocated := buffer.allocated + 1 }.advance 1, ?_, rfl⟩
          simp only [ParseBuffer.allocate, hallocate]
      | true =>
          have ⟨hle, hscanned⟩ := scanned_of_scanString hscan
          have hroom : ([] : List UInt8).length + (count - skipped) < count + 1 - skipped + 1 := by
            rw [List.length_nil]
            omega
          obtain ⟨⟨result, leftover⟩, hread⟩ := unescape_defined (.aligned hscanned) hroom
          simp only [ParseBuffer.allocate, hallocate, hread, Except.map]
          cases result with
          | none => exact .inl ⟨_, rfl, rfl⟩
          | some bytes =>
              have hbehind : ({ buffer with allocated := buffer.allocated + 1 }.advance
                  (1 + count + 1)).rest = text.drop (count + 1) := by
                rw [ParseBuffer.rest_advance, Nat.add_comm 1 count]
                exact congrArg (List.drop (count + 1 + 1)) hrest
              obtain ⟨rest, hend⟩ := hscanned.exists_quote
              have htail : text.drop (count + 1) = rest := by
                rw [← List.drop_drop, hend]
                rfl
              have hclosing : Terminated (QUOTE :: rest) := by
                refine hterminated.of_suffix ?_ (List.cons_ne_nil _ _)
                rw [hrest, ← hend]
                exact (List.drop_suffix count text).trans (List.suffix_cons _ _)
              refine .inr ⟨bytes, _, rfl, rfl, Nat.lt_add_of_pos_right (by omega), ?_, ?_⟩
              · rw [hbehind, htail]
                exact hclosing.tail (by decide)
              · rw [hbehind, hrest]
                exact .mk hscan hread

theorem parseString_complete (hallocates : ∀ n, env.allocates n = true) :
    Complete ReadString (parseString env) := by
  intro buffer bytes rest hterminated h
  generalize hrest : buffer.rest = text at h
  obtain @⟨input, bytes, leftover, count, skipped, hscan, hread⟩ := h
  have hinput : buffer.content.drop (buffer.offset + 1) = input := by
    rw [← List.drop_drop]
    exact congrArg (List.drop 1) hrest
  have hparse : parseString env buffer =
      .ok (some bytes, { buffer with allocated := buffer.allocated + 1 }.advance
        (1 + count + 1)) := by
    rw [parseString, ParseBuffer.byteAt_of_rest hrest, hinput]
    simp only [Except.bind, ne_eq, not_true_eq_false, if_false, hscan, ParseBuffer.allocate,
      hallocates, hread, Except.map]
  refine ⟨_, hparse, parseString_sound.reads hterminated hparse, ?_⟩
  rw [ParseBuffer.rest_advance, Nat.add_comm 1 count]
  exact congrArg (List.drop (count + 1 + 1)) hrest

theorem isNumberChar_ne_zero {c : UInt8} (h : isNumberChar c = true) : c ≠ 0 := by
  rintro rfl
  cases h

/-- No NUL is read as a part of a number. -/
theorem ne_zero_of_number {text : List UInt8} {n : Nat} (h : n ≤ (numberText text).length) :
    ∀ c ∈ text.take n, c ≠ 0 := by
  intro c hc
  have hprefix : numberText text <+: text :=
    (List.takeWhile_prefix _).trans (List.take_prefix 63 text)
  have htake : text.take n = (numberText text).take n := by
    rw [List.prefix_iff_eq_take.mp hprefix, List.take_take, Nat.min_eq_left h]
  rw [htake] at hc
  exact isNumberChar_ne_zero (List.mem_takeWhile_imp (List.mem_of_mem_take hc))

section Numbers

variable {buffer : ParseBuffer} {c : UInt8} {text : List UInt8} {value : ν} {n : Nat}

theorem parseNumber_of_strtod (h : env.strtod (numberText buffer.rest) = (value, n + 1)) :
    parseNumber env buffer = .ok (some (.number value), buffer.advance (n + 1)) := by
  have hstring : env.strtod (numberCString buffer) = (value, n + 1) := h
  simp only [parseNumber, hstring, Nat.add_one_ne_zero, if_false]

/-- A number is read at a character that one may begin with. -/
theorem parseNumber_readsOrFails {string : Grammar UInt8 (List UInt8)}
    {nested : Option (Grammar UInt8 (CJsonItem ν))}
    (hstrtod : ∀ text, (env.strtod text).2 ≤ text.length) (hterminated : Terminated buffer.rest)
    (hrest : buffer.rest = c :: text) (hc : c = 45 ∨ (48 ≤ c ∧ c ≤ 57)) :
    ReadsOrFails (JsonValueWith env.strtod string nested) buffer (parseNumber env buffer) := by
  obtain ⟨value, n, hread⟩ | ⟨value, hread⟩ :
      (∃ value n, env.strtod (numberText buffer.rest) = (value, n + 1)) ∨
        ∃ value, env.strtod (numberText buffer.rest) = (value, 0) := by
    obtain ⟨value, n⟩ := env.strtod (numberText buffer.rest)
    cases n with
    | zero => exact .inr ⟨value, rfl⟩
    | succ n => exact .inl ⟨value, n, rfl⟩
  · have hlength := hstrtod (numberText buffer.rest)
    rw [hread] at hlength
    refine .inr ⟨_, _, parseNumber_of_strtod hread, rfl, Nat.lt_add_of_pos_right (Nat.succ_pos n),
      ?_, ?_⟩
    · rw [ParseBuffer.rest_advance]
      exact hterminated.drop (n + 1) (ne_zero_of_number hlength)
    · rw [ParseBuffer.rest_advance, hrest]
      exact .number hc (hrest ▸ hread)
  · have hstring : env.strtod (numberCString buffer) = (value, 0) := hread
    exact .inl ⟨buffer, by simp only [parseNumber, hstring, if_true], rfl⟩

end Numbers

/-! ## Elements between brackets -/

section Elements

variable {element : ParseBuffer → Parse α} {opening closing : UInt8}

/-- An element with the blanks around it. -/
structure ReadsElement (grammar : Grammar UInt8 α) (buffer : ParseBuffer) (item : α)
    (behind : ParseBuffer) (first after : List UInt8) : Prop where
  content : behind.skipWhitespace.content = buffer.content
  offset_lt : buffer.offset < behind.skipWhitespace.offset
  terminated : Terminated behind.skipWhitespace.rest
  blanks : Blanks IsBlank buffer.rest first
  reads : grammar first item after
  blanks_after : Blanks IsBlank after behind.skipWhitespace.rest

theorem Sound.element_reads {buffer : ParseBuffer} (helement : Sound grammar element)
    (hterminated : Terminated buffer.rest) :
    (∃ behind, element buffer.skipWhitespace = .ok (none, behind) ∧
        behind.content = buffer.content) ∨
      ∃ item behind first after, element buffer.skipWhitespace = .ok (some item, behind) ∧
        ReadsElement grammar buffer item behind first after := by
  have hfirst := ParseBuffer.skips_skipWhitespace hterminated
  rcases helement _ hfirst.terminated with
    ⟨behind, hread, hcontent⟩ | ⟨item, behind, hread, hitem⟩
  · exact .inl ⟨behind, hread, hcontent.trans hfirst.content⟩
  have hbehind := ParseBuffer.skips_skipWhitespace hitem.terminated
  exact .inr ⟨item, behind, buffer.skipWhitespace.rest, behind.rest, hread,
    { content := hbehind.content.trans (hitem.content.trans hfirst.content)
      offset_lt := (hfirst.offset_le.trans_lt hitem.offset_lt).trans_le hbehind.offset_le
      terminated := hbehind.terminated
      blanks := hfirst.blanks
      reads := hitem.reads
      blanks_after := hbehind.blanks }⟩

theorem fuel_pos {buffer : ParseBuffer} {fuel : Nat}
    (hfuel : buffer.content.length ≤ buffer.offset + fuel)
    (hterminated : Terminated (buffer.advance 1).rest) : 0 < fuel := by
  obtain ⟨c, text, hrest⟩ := hterminated.exists_cons
  have hinside : buffer.offset + 1 < buffer.content.length := ParseBuffer.offset_lt_of_rest hrest
  omega

/-- One element behind the others; `buffer` is in front of it. -/
theorem parseElements_sound (env : ParseEnv ν) (helement : Sound grammar element)
    (hclosing : closing ≠ 0) :
    ∀ (fuel : Nat) (buffer : ParseBuffer) (child : List α),
      buffer.content.length ≤ buffer.offset + fuel → Terminated (buffer.advance 1).rest →
        ReadsOrFails
          (fun text items rest =>
            ∃ new, items = child ++ new ∧ Items IsBlank 44 closing grammar text new rest)
          (buffer.advance 1) (parseElements env closing element fuel buffer child)
  | 0, _, _, hfuel, hterminated => absurd (fuel_pos hfuel hterminated) (Nat.lt_irrefl 0)
  | fuel + 1, buffer, child, hfuel, hterminated => by
      rw [parseElements]
      cases hallocates : env.allocates buffer.allocated with
      | false =>
          refine .inl ⟨{ buffer with allocated := buffer.allocated + 1 }, ?_, rfl⟩
          simp only [ParseBuffer.allocate, hallocates]
      | true =>
          simp only [ParseBuffer.allocate, hallocates]
          have hstart :
              Terminated ({ buffer with allocated := buffer.allocated + 1 }.advance 1).rest :=
            hterminated
          rcases helement.element_reads hstart with
            ⟨behind, hread, hcontent⟩ | ⟨item, behind, first, after, hread, hitem⟩
          · rw [hread]
            exact .inl ⟨behind, rfl, hcontent⟩
          obtain ⟨content, offset_lt, terminated, blanks, reads, blanks_after⟩ := hitem
          simp only [hread, Except.bind]
          generalize behind.skipWhitespace = next at content offset_lt terminated blanks_after
          obtain ⟨c, text, hnext⟩ := terminated.exists_cons
          have hoffset : buffer.offset + 1 < next.offset := offset_lt
          rw [hnext] at terminated blanks_after
          simp only [ParseBuffer.canAccess_of_rest hnext, if_true, ParseBuffer.byteAt_of_rest hnext]
          have htext : (next.advance 1).rest = text :=
            (ParseBuffer.rest_advance next 1).trans (congrArg (List.drop 1) hnext)
          by_cases hcomma : c = 44
          · -- the induction goes on behind the comma
            subst hcomma
            rw [if_pos rfl]
            have htail := terminated.tail (by decide)
            have hfuel' : next.content.length ≤ next.offset + fuel := by
              rw [content]
              exact hfuel.trans (by omega)
            rcases parseElements_sound env helement hclosing fuel next (child ++ [item]) hfuel'
              (htext.symm ▸ htail) with ⟨behind, hmore, hcontent⟩ | ⟨items, behind, hmore, hreads⟩
            · exact .inl ⟨behind, hmore, hcontent.trans content⟩
            · obtain ⟨new, rfl, hnew⟩ := hreads.reads
              rw [htext] at hnew
              refine .inr ⟨_, behind, hmore, hreads.content.trans content, ?_, hreads.terminated,
                item :: new, List.append_assoc _ _ _, .more blanks reads blanks_after hnew⟩
              exact hoffset.trans (Nat.lt_of_succ_lt hreads.offset_lt)
          · rw [if_neg hcomma]
            by_cases hc : c ≠ closing
            · exact .inl ⟨next, if_pos hc, content⟩
            obtain rfl : c = closing := not_not.mp hc
            rw [if_neg hc]
            refine .inr ⟨_, _, rfl, content, hoffset.trans (Nat.lt_succ_self _), ?_, [item], rfl, ?_⟩
            · exact htext.symm ▸ terminated.tail hclosing
            · exact htext.symm ▸ .last blanks reads blanks_after

/-- What the grammar reads begins with a character that is not blank and not the closing one. -/
def StartsBefore (grammar : Grammar UInt8 α) (closing : UInt8) : Prop :=
  ∀ text item rest, grammar text item rest → ∃ c t, text = c :: t ∧ ¬IsBlank c ∧ c ≠ closing

theorem Complete.element_reads {buffer : ParseBuffer} {item : α} {first after text : List UInt8}
    {c : UInt8} (hcomplete : Complete grammar element) (hsound : Sound grammar element)
    (hstarts : StartsBefore grammar closing) (hterminated : Terminated buffer.rest)
    (hblanks : Blanks IsBlank buffer.rest first) (hitem : grammar first item after)
    (hafter : Blanks IsBlank after (c :: text)) (hc : ¬IsBlank c) :
    ∃ behind, element buffer.skipWhitespace = .ok (some item, behind) ∧
      behind.skipWhitespace.rest = c :: text ∧ Terminated (c :: text) ∧
      behind.skipWhitespace.content = buffer.content ∧
      buffer.offset < behind.skipWhitespace.offset := by
  obtain ⟨c', t, rfl, hc', _⟩ := hstarts _ _ _ hitem
  have hfirst := ParseBuffer.skipWhitespace_of_blanks hc' hblanks
  have hinside : Terminated buffer.skipWhitespace.rest :=
    hterminated.of_suffix (hfirst ▸ hblanks.suffix) (hfirst ▸ List.cons_ne_nil _ _)
  obtain ⟨behind, hread, _, hrest⟩ := hcomplete _ _ _ hinside (hfirst.symm ▸ hitem)
  rcases hsound.element_reads hterminated with
    ⟨_, hfail, _⟩ | ⟨_, _, _, _, hread', helement⟩
  · rw [hread] at hfail
    cases hfail
  · rw [hread] at hread'
    cases hread'
    have hnext := ParseBuffer.skipWhitespace_of_blanks hc (hrest.symm ▸ hafter)
    exact ⟨behind, hread, hnext, hnext ▸ helement.terminated, helement.content, helement.offset_lt⟩

/-- One element, and what the character behind it decides. -/
theorem parseElements_step {buffer : ParseBuffer} {item : α} {first after text : List UInt8}
    {c : UInt8} (hallocates : ∀ n, env.allocates n = true) (hcomplete : Complete grammar element)
    (hsound : Sound grammar element) (hstarts : StartsBefore grammar closing)
    (hterminated : Terminated (buffer.advance 1).rest)
    (hblanks : Blanks IsBlank (buffer.advance 1).rest first) (hitem : grammar first item after)
    (hafter : Blanks IsBlank after (c :: text)) (hc : ¬IsBlank c) (fuel : Nat) (child : List α) :
    ∃ next : ParseBuffer, next.rest = c :: text ∧ Terminated (c :: text) ∧
      next.content = buffer.content ∧ buffer.offset + 1 < next.offset ∧
      parseElements env closing element (fuel + 1) buffer child =
        if c = 44 then parseElements env closing element fuel next (child ++ [item])
        else if c ≠ closing then .ok (none, next)
        else .ok (some (child ++ [item]), next.advance 1) := by
  have hterminated' :
      Terminated ({ buffer with allocated := buffer.allocated + 1 }.advance 1).rest :=
    hterminated
  have hblanks' :
      Blanks IsBlank ({ buffer with allocated := buffer.allocated + 1 }.advance 1).rest first :=
    hblanks
  obtain ⟨behind, hread, hnext, hbehind, hcontent, hoffset⟩ :=
    hcomplete.element_reads hsound hstarts hterminated' hblanks' hitem hafter hc
  refine ⟨behind.skipWhitespace, hnext, hbehind, hcontent, hoffset, ?_⟩
  rw [parseElements]
  simp only [ParseBuffer.allocate, hallocates, hread, Except.bind,
    ParseBuffer.canAccess_of_rest hnext, if_true, ParseBuffer.byteAt_of_rest hnext]

theorem parseElements_complete {text rest : List UInt8} {items : List α}
    (hallocates : ∀ n, env.allocates n = true) (hcomplete : Complete grammar element)
    (hsound : Sound grammar element) (hstarts : StartsBefore grammar closing)
    (hclosing : ¬IsBlank closing) (hcomma : closing ≠ 44)
    (h : Items IsBlank 44 closing grammar text items rest) :
    ∀ (fuel : Nat) (buffer : ParseBuffer) (child : List α),
      buffer.content.length ≤ buffer.offset + fuel → (buffer.advance 1).rest = text →
        Terminated text →
          ∃ behind, parseElements env closing element fuel buffer child =
            .ok (some (child ++ items), behind) ∧ behind.rest = rest := by
  induction h with
  | @last text first after rest item hblanks hitem hafter =>
      rintro fuel buffer child hfuel rfl hterminated
      obtain ⟨fuel, rfl⟩ := Nat.exists_eq_add_of_lt (fuel_pos hfuel hterminated)
      obtain ⟨next, hnext, _, _, _, hread⟩ := parseElements_step hallocates hcomplete hsound hstarts
        hterminated hblanks hitem hafter hclosing (0 + fuel) child
      rw [if_neg hcomma, if_neg (not_not.mpr rfl)] at hread
      refine ⟨_, hread, ?_⟩
      rw [ParseBuffer.rest_advance, hnext]
      rfl
  | @more text first after behind rest item items hblanks hitem hafter _ ih =>
      rintro fuel buffer child hfuel rfl hterminated
      obtain ⟨fuel, rfl⟩ := Nat.exists_eq_add_of_lt (fuel_pos hfuel hterminated)
      obtain ⟨next, hnext, hinside, hcontent, hoffset, hread⟩ := parseElements_step hallocates hcomplete
        hsound hstarts hterminated hblanks hitem hafter (by decide) (0 + fuel) child
      rw [if_pos rfl] at hread
      have hbehind : (next.advance 1).rest = behind := by
        rw [ParseBuffer.rest_advance, hnext]
        rfl
      have hfuel' : next.content.length ≤ next.offset + (0 + fuel) := by
        rw [hcontent]
        omega
      obtain ⟨last, hmore, hrest⟩ :=
        ih (0 + fuel) next (child ++ [item]) hfuel' hbehind (hinside.tail (by decide))
      rw [List.append_assoc] at hmore
      exact ⟨last, hread.trans hmore, hrest⟩

/-- To step back and to go on again. -/
theorem advance_back {buffer : ParseBuffer} (h : 0 < buffer.offset) :
    { buffer with offset := buffer.offset - 1 }.advance 1 = buffer := by
  rw [ParseBuffer.advance, Nat.sub_add_cancel h]

theorem parseSequence_sound (helement : Sound grammar element) (hopening : opening ≠ 0)
    (hclosing : closing ≠ 0) :
    Sound (Bracketed IsBlank opening 44 closing grammar)
      (parseSequence env opening closing element) := by
  intro buffer hterminated
  obtain ⟨c, text, hrest⟩ := hterminated.exists_cons
  simp only [parseSequence, ParseBuffer.byteAt_of_rest hrest, Except.bind]
  by_cases hc : c ≠ opening
  · exact .inl ⟨buffer, if_pos hc, rfl⟩
  obtain rfl : c = opening := not_not.mp hc
  rw [if_neg hc]
  have htext : (buffer.advance 1).rest = text :=
    (ParseBuffer.rest_advance buffer 1).trans (congrArg (List.drop 1) hrest)
  have hinside : Terminated (buffer.advance 1).rest :=
    htext.symm ▸ (hrest ▸ hterminated).tail hopening
  obtain ⟨hcontent, hoffset, hfirst, hblanks⟩ := ParseBuffer.skips_skipWhitespace hinside
  generalize (buffer.advance 1).skipWhitespace = next at hfirst hblanks hcontent hoffset
  rw [htext] at hblanks
  obtain ⟨c', behind, hnext⟩ := hfirst.exists_cons
  simp only [ParseBuffer.canAccess_of_rest hnext, if_true, ParseBuffer.byteAt_of_rest hnext]
  by_cases hc' : c' = closing
  · subst hc'
    rw [if_pos rfl]
    rw [hnext] at hfirst hblanks
    have hbehind : (next.advance 1).rest = behind :=
      (ParseBuffer.rest_advance next 1).trans (congrArg (List.drop 1) hnext)
    refine .inr ⟨_, _, rfl, hcontent, Nat.lt_succ_of_le (Nat.le_of_succ_le hoffset), ?_, ?_⟩
    · exact hbehind.symm ▸ hfirst.tail hclosing
    · exact hbehind.symm ▸ hrest.symm ▸ .empty hblanks
  · rw [if_neg hc']
    have hpos : 0 < next.offset := Nat.lt_of_lt_of_le (Nat.succ_pos _) hoffset
    have hback := advance_back hpos
    have hfuel : next.content.length ≤ next.offset - 1 + next.content.length :=
      Nat.le_add_left _ _
    have helements := parseElements_sound env helement hclosing next.content.length
      { next with offset := next.offset - 1 } [] hfuel (hback.symm ▸ hfirst)
    rcases helements with ⟨behind, hread, hsame⟩ | ⟨items, behind, hread, hreads⟩
    · exact .inl ⟨behind, hread, hsame.trans hcontent⟩
    · obtain ⟨content, offset_lt, terminated, new, rfl, hitems⟩ := hreads
      rw [hback] at content offset_lt hitems
      refine .inr ⟨_, behind, hread, content.trans hcontent, ?_, terminated, ?_⟩
      · exact (Nat.lt_of_succ_le hoffset).trans offset_lt
      · rw [hrest]
        exact .items (hitems.of_blanks hblanks)

theorem parseSequence_complete (hallocates : ∀ n, env.allocates n = true)
    (hcomplete : Complete grammar element) (hsound : Sound grammar element)
    (hstarts : StartsBefore grammar closing) (hopening : opening ≠ 0)
    (hclosing : ¬IsBlank closing) (hcomma : closing ≠ 44) :
    Complete (Bracketed IsBlank opening 44 closing grammar)
      (parseSequence env opening closing element) := by
  intro buffer items rest hterminated h
  have hne : closing ≠ 0 := by
    rintro rfl
    exact hclosing (by decide)
  suffices hread : ∃ behind, parseSequence env opening closing element buffer =
      .ok (some items, behind) ∧ behind.rest = rest by
    obtain ⟨behind, hread, hrest⟩ := hread
    exact ⟨behind, hread,
      (parseSequence_sound hsound hopening hne).reads hterminated hread, hrest⟩
  generalize hrest : buffer.rest = text at h hterminated
  cases h with
  | @empty text rest hblanks =>
      have htext : (buffer.advance 1).rest = text :=
        (ParseBuffer.rest_advance buffer 1).trans (congrArg (List.drop 1) hrest)
      have hnext := ParseBuffer.skipWhitespace_of_blanks hclosing (htext.symm ▸ hblanks)
      refine ⟨(buffer.advance 1).skipWhitespace.advance 1, ?_, ?_⟩
      · simp only [parseSequence, ParseBuffer.byteAt_of_rest hrest, Except.bind, ne_eq,
          not_true_eq_false, if_false, ParseBuffer.canAccess_of_rest hnext, if_true,
          ParseBuffer.byteAt_of_rest hnext]
      · rw [ParseBuffer.rest_advance, hnext]
        rfl
  | @items text rest items hitems =>
      have htext : (buffer.advance 1).rest = text :=
        (ParseBuffer.rest_advance buffer 1).trans (congrArg (List.drop 1) hrest)
      obtain ⟨first, item, after, hblanks, hitem, hfirst⟩ := hitems.exists_first
      obtain ⟨c, t, rfl, hc, hne'⟩ := hstarts _ _ _ hitem
      have hinside : Terminated (buffer.advance 1).rest :=
        htext.symm ▸ hterminated.tail hopening
      have hnext := ParseBuffer.skipWhitespace_of_blanks hc (htext.symm ▸ hblanks)
      have hskips := ParseBuffer.skips_skipWhitespace hinside
      have hback := advance_back (Nat.lt_of_lt_of_le (Nat.succ_pos _) hskips.offset_le)
      obtain ⟨behind, hread, hbehind⟩ := parseElements_complete hallocates hcomplete hsound hstarts
        hclosing hcomma hfirst (buffer.advance 1).skipWhitespace.content.length
        { (buffer.advance 1).skipWhitespace with
          offset := (buffer.advance 1).skipWhitespace.offset - 1 }
        [] (Nat.le_add_left _ _) (hback.symm ▸ hnext) (hnext ▸ hskips.terminated)
      refine ⟨behind, ?_, hbehind⟩
      simp only [parseSequence, ParseBuffer.byteAt_of_rest hrest, Except.bind, ne_eq,
        not_true_eq_false, if_false, ParseBuffer.canAccess_of_rest hnext, if_true,
        ParseBuffer.byteAt_of_rest hnext, if_neg hne']
      exact hread

end Elements

/-! ## Members and values -/

section Values

variable {value : ParseBuffer → Parse (CJsonItem ν)} {grammar : Grammar UInt8 (CJsonItem ν)}

theorem parseMember_sound (hvalue : Sound grammar value) :
    Sound (JsonMember ReadString grammar) (parseMember env value) := by
  intro buffer hterminated
  rw [parseMember]
  have hstring : Sound ReadString (parseString env) := parseString_sound
  rcases hstring buffer hterminated with
    ⟨behind, hread, hcontent⟩ | ⟨name, behind, hread, hname⟩
  · rw [hread]
    exact .inl ⟨behind, rfl, hcontent⟩
  simp only [hread, Except.bind]
  have hbehind := ParseBuffer.skips_skipWhitespace hname.terminated
  obtain ⟨c, text, hcolon⟩ := hbehind.terminated.exists_cons
  simp only [ParseBuffer.canAccess_of_rest hcolon, if_true, ParseBuffer.byteAt_of_rest hcolon]
  by_cases hc : c ≠ 58
  · exact .inl ⟨_, if_pos hc, hbehind.content.trans hname.content⟩
  obtain rfl : c = 58 := not_not.mp hc
  rw [if_neg hc]
  have htext : (behind.skipWhitespace.advance 1).rest = text :=
    (ParseBuffer.rest_advance _ 1).trans (congrArg (List.drop 1) hcolon)
  have hinside : Terminated (behind.skipWhitespace.advance 1).rest :=
    htext.symm ▸ (hcolon ▸ hbehind.terminated).tail (by decide)
  have hnext := ParseBuffer.skips_skipWhitespace hinside
  have hsame := hnext.content.trans (hbehind.content.trans hname.content)
  rcases hvalue _ hnext.terminated with ⟨last, hread', hcontent⟩ | ⟨item, last, hread', hitem⟩
  · rw [hread']
    exact .inl ⟨last, rfl, hcontent.trans hsame⟩
  rw [hread']
  refine .inr ⟨(name, item), last, rfl, ?_, ?_, hitem.terminated, ?_⟩
  · exact hitem.content.trans hsame
  · calc buffer.offset < behind.offset := hname.offset_lt
      _ ≤ behind.skipWhitespace.offset := hbehind.offset_le
      _ ≤ (behind.skipWhitespace.advance 1).offset := Nat.le_succ _
      _ ≤ (behind.skipWhitespace.advance 1).skipWhitespace.offset := hnext.offset_le
      _ < last.offset := hitem.offset_lt
  · exact .mk hname.reads (hcolon ▸ hbehind.blanks) (htext ▸ hnext.blanks) hitem.reads

theorem parseMember_complete {closing : UInt8} (hallocates : ∀ n, env.allocates n = true)
    (hcomplete : Complete grammar value) (hsound : Sound grammar value)
    (hstarts : StartsBefore grammar closing) :
    Complete (JsonMember ReadString grammar) (parseMember env value) := by
  rintro buffer ⟨name, item⟩ rest hterminated @⟨_, _, after, colon, first, _, _, hname, hcolon,
    hblanks, hitem⟩
  suffices hread : ∃ last, parseMember env value buffer = .ok (some (name, item), last) ∧
      last.rest = rest by
    obtain ⟨last, hread, hrest⟩ := hread
    exact ⟨last, hread, (parseMember_sound hsound).reads hterminated hread, hrest⟩
  obtain ⟨behind, hread, hreads, rfl⟩ := parseString_complete hallocates _ _ _ hterminated hname
  have hbehind := ParseBuffer.skips_skipWhitespace hreads.terminated
  have hcolon' := ParseBuffer.skipWhitespace_of_blanks (by decide) hcolon
  have htext : (behind.skipWhitespace.advance 1).rest = colon :=
    (ParseBuffer.rest_advance _ 1).trans (congrArg (List.drop 1) hcolon')
  have hinside : Terminated (behind.skipWhitespace.advance 1).rest :=
    htext.symm ▸ (hcolon' ▸ hbehind.terminated).tail (by decide)
  obtain ⟨c, t, rfl, hc, _⟩ := hstarts _ _ _ hitem
  have hnext := ParseBuffer.skipWhitespace_of_blanks hc (htext.symm ▸ hblanks)
  have hskips := ParseBuffer.skips_skipWhitespace hinside
  obtain ⟨last, hread', _, hrest⟩ := hcomplete _ _ _ hskips.terminated (hnext.symm ▸ hitem)
  refine ⟨last, ?_, hrest⟩
  simp only [parseMember, hread, Except.bind, ParseBuffer.canAccess_of_rest hcolon', if_true,
    ParseBuffer.byteAt_of_rest hcolon', ne_eq, not_true_eq_false, if_false, hread', Except.map,
    Option.map_some]

theorem rest_of_startsWith {buffer : ParseBuffer} {word : List UInt8}
    (h : buffer.startsWith word = true) : ∃ rest, buffer.rest = word ++ rest := by
  obtain ⟨rest, hrest⟩ := List.isPrefixOf_iff_prefix.mp (Bool.and_eq_true_iff.mp h).2
  exact ⟨rest, hrest.symm⟩

theorem startsWith_of_rest {buffer : ParseBuffer} {word rest : List UInt8}
    (h : buffer.rest = word ++ rest) (hne : word ≠ []) : buffer.startsWith word = true := by
  refine Bool.and_eq_true_iff.mpr ⟨decide_eq_true ?_,
    List.isPrefixOf_iff_prefix.mpr ⟨rest, h.symm⟩⟩
  have hlength : word.length + rest.length = buffer.content.length - buffer.offset := by
    rw [← List.length_append, ← h]
    exact List.length_drop
  have hpos := List.length_pos_iff.mpr hne
  omega

theorem word_reads {buffer : ParseBuffer} {word rest : List UInt8} {item : CJsonItem ν}
    (hterminated : Terminated buffer.rest) (h : buffer.rest = word ++ rest) (hne : word ≠ [])
    (hword : 0 ∉ word) (hgrammar : grammar (word ++ rest) item rest) :
    Reads grammar buffer item (buffer.advance word.length) := by
  have hrest : (buffer.advance word.length).rest = rest := by
    rw [ParseBuffer.rest_advance, h]
    exact List.drop_left
  refine ⟨rfl, Nat.lt_add_of_pos_right (List.length_pos_iff.mpr hne), ?_, ?_⟩
  · rw [ParseBuffer.rest_advance]
    refine hterminated.drop word.length fun c hc => ?_
    rw [h, List.take_left] at hc
    exact fun hzero => hword (hzero ▸ hc)
  · rwa [hrest, h]

/-- What a value begins with. -/
theorem jsonValue_head {strtod : List UInt8 → ν × Nat} {string : Grammar UInt8 (List UInt8)}
    {nested : Option (Grammar UInt8 (CJsonItem ν))} {text rest : List UInt8} {item : CJsonItem ν}
    (hstring : ∀ text bytes rest, string text bytes rest → ∃ t, text = QUOTE :: t)
    (h : JsonValueWith strtod string nested text item rest) :
    ∃ c t, text = c :: t ∧ ¬IsBlank c ∧ c ≠ 93 ∧ c ≠ 125 ∧ c ≠ 0xEF := by
  cases h with
  | null rest => exact ⟨110, _, rfl, by decide, by decide, by decide, by decide⟩
  | false rest => exact ⟨102, _, rfl, by decide, by decide, by decide, by decide⟩
  | true rest => exact ⟨116, _, rfl, by decide, by decide, by decide, by decide⟩
  | string h =>
      obtain ⟨t, rfl⟩ := hstring _ _ _ h
      exact ⟨QUOTE, t, rfl, by decide, by decide, by decide, by decide⟩
  | @number c t value n hc =>
      refine ⟨c, t, rfl, ?_⟩
      rcases hc with rfl | ⟨hge, hle⟩
      · decide
      · have hne {d : UInt8} (hd : ¬d ≤ 57) : c ≠ d := by
          rintro rfl
          exact hd hle
        exact ⟨fun h : c ≤ 32 => absurd (UInt8.le_trans hge h) (by decide), hne (by decide),
          hne (by decide), hne (by decide)⟩
  | array _ h =>
      cases h with
      | empty => exact ⟨91, _, rfl, by decide, by decide, by decide, by decide⟩
      | items => exact ⟨91, _, rfl, by decide, by decide, by decide, by decide⟩
  | object _ h =>
      cases h with
      | empty => exact ⟨123, _, rfl, by decide, by decide, by decide, by decide⟩
      | items => exact ⟨123, _, rfl, by decide, by decide, by decide, by decide⟩

theorem readString_head (text bytes rest : List UInt8) (h : ReadString text bytes rest) :
    ∃ t, text = QUOTE :: t := by
  obtain ⟨_, _⟩ := h
  exact ⟨_, rfl⟩

section ValueWith

variable {nested : Option (ParseBuffer → Parse (CJsonItem ν))}
variable {grammars : Option (Grammar UInt8 (CJsonItem ν))}

theorem parseValueWith_sound (hstrtod : ∀ text, (env.strtod text).2 ≤ text.length)
    (hnested : ∀ value, nested = some value → ∃ grammar, grammars = some grammar ∧
      Sound grammar value) :
    Sound (JsonValueWith env.strtod ReadString grammars) (parseValueWith env nested) := by
  intro buffer hterminated
  rw [parseValueWith.eq_def]
  by_cases hnull : buffer.startsWith nullText
  · obtain ⟨rest, hrest⟩ := rest_of_startsWith hnull
    exact .inr ⟨_, _, if_pos hnull,
      word_reads hterminated hrest (by decide) (by decide) (.null rest)⟩
  rw [if_neg hnull]
  by_cases hfalse : buffer.startsWith falseText
  · obtain ⟨rest, hrest⟩ := rest_of_startsWith hfalse
    exact .inr ⟨_, _, if_pos hfalse,
      word_reads hterminated hrest (by decide) (by decide) (.false rest)⟩
  rw [if_neg hfalse]
  by_cases htrue : buffer.startsWith trueText
  · obtain ⟨rest, hrest⟩ := rest_of_startsWith htrue
    exact .inr ⟨_, _, if_pos htrue,
      word_reads hterminated hrest (by decide) (by decide) (.true rest)⟩
  rw [if_neg htrue]
  obtain ⟨c, text, hrest⟩ := hterminated.exists_cons
  simp only [ParseBuffer.canAccess_of_rest hrest, if_true, ParseBuffer.byteAt_of_rest hrest,
    Except.bind]
  by_cases hquote : c = QUOTE
  · rw [if_pos hquote]
    exact (parseString_sound buffer hterminated).map CJsonItem.string
      fun _ _ _ h => JsonValueWith.string h
  rw [if_neg hquote]
  by_cases hnumber : c = 45 ∨ (48 ≤ c ∧ c ≤ 57)
  · rw [if_pos hnumber]
    exact parseNumber_readsOrFails hstrtod hterminated hrest hnumber
  rw [if_neg hnumber]
  by_cases harray : c = 91
  · rw [if_pos harray]
    cases hvalue : nested with
    | none => exact .inl ⟨buffer, rfl, rfl⟩
    | some value =>
        obtain ⟨grammar, hgrammar, hsound⟩ := hnested value hvalue
        have harray : Sound (Bracketed IsBlank 91 44 93 grammar)
            (parseSequence env 91 93 value) :=
          parseSequence_sound hsound (by decide) (by decide)
        exact (harray buffer hterminated).map CJsonItem.array
          fun _ _ _ h => JsonValueWith.array hgrammar h
  rw [if_neg harray]
  by_cases hobject : c = 123
  · rw [if_pos hobject]
    cases hvalue : nested with
    | none => exact .inl ⟨buffer, rfl, rfl⟩
    | some value =>
        obtain ⟨grammar, hgrammar, hsound⟩ := hnested value hvalue
        simp only [parseObject, ParseBuffer.canAccess_of_rest hrest, if_true]
        have hobject : Sound (Bracketed IsBlank 123 44 125 (JsonMember ReadString grammar))
            (parseSequence env 123 125 (parseMember env value)) :=
          parseSequence_sound (parseMember_sound hsound) (by decide) (by decide)
        exact (hobject buffer hterminated).map CJsonItem.object
          fun _ _ _ h => JsonValueWith.object hgrammar h
  · exact .inl ⟨buffer, if_neg hobject, rfl⟩

theorem not_startsWith {buffer : ParseBuffer} {c w : UInt8} {text word : List UInt8}
    (h : buffer.rest = c :: text) (hc : c ≠ w) : ¬buffer.startsWith (w :: word) = true := by
  intro hstarts
  obtain ⟨rest, hrest⟩ := rest_of_startsWith hstarts
  rw [h] at hrest
  exact hc (List.cons.inj hrest).1

/-- The first character decides, if it is none of the words'. -/
theorem parseValueWith_of_head {buffer : ParseBuffer} {c : UInt8} {text : List UInt8}
    (hrest : buffer.rest = c :: text) (hnull : c ≠ 110) (hfalse : c ≠ 102) (htrue : c ≠ 116) :
    parseValueWith env nested buffer =
      if c = QUOTE then
        (parseString env buffer).map fun (valuestring, buffer) =>
          (valuestring.map .string, buffer)
      else if c = 45 ∨ (48 ≤ c ∧ c ≤ 57) then
        parseNumber env buffer
      else if c = 91 then
        match nested with
        | none => .ok (none, buffer)
        | some value => parseArray env value buffer
      else if c = 123 then
        match nested with
        | none => .ok (none, buffer)
        | some value => parseObject env value buffer
      else
        .ok (none, buffer) := by
  have hnull : ¬buffer.startsWith nullText = true := not_startsWith hrest hnull
  have hfalse : ¬buffer.startsWith falseText = true := not_startsWith hrest hfalse
  have htrue : ¬buffer.startsWith trueText = true := not_startsWith hrest htrue
  rw [parseValueWith.eq_def, if_neg hnull, if_neg hfalse, if_neg htrue, if_pos
    (ParseBuffer.canAccess_of_rest hrest), ParseBuffer.byteAt_of_rest hrest]
  rfl

theorem Complete.exists_map {grammar : Grammar UInt8 α} {parse : ParseBuffer → Parse α} {item : α}
    {buffer : ParseBuffer} {rest : List UInt8} (h : Complete grammar parse)
    (hterminated : Terminated buffer.rest) (hitem : grammar buffer.rest item rest) (f : α → β) :
    ∃ behind, (parse buffer).map (fun (item, buffer) => (item.map f, buffer)) =
      .ok (some (f item), behind) ∧ behind.rest = rest := by
  obtain ⟨behind, hread, _, hrest⟩ := h _ _ _ hterminated hitem
  exact ⟨behind, by rw [hread]; rfl, hrest⟩

theorem parseValueWith_complete (hallocates : ∀ n, env.allocates n = true)
    (hstrtod : ∀ text, (env.strtod text).2 ≤ text.length)
    (hsound : ∀ value, nested = some value → ∃ grammar, grammars = some grammar ∧
      Sound grammar value)
    (hnested : ∀ grammar, grammars = some grammar → ∃ value, nested = some value ∧
      Complete grammar value ∧ Sound grammar value ∧
        (∀ closing, closing = 93 ∨ closing = 125 → StartsBefore grammar closing)) :
    Complete (JsonValueWith env.strtod ReadString grammars) (parseValueWith env nested) := by
  intro buffer item rest hterminated h
  suffices hread : ∃ behind, parseValueWith env nested buffer = .ok (some item, behind) ∧
      behind.rest = rest by
    obtain ⟨behind, hread, hrest⟩ := hread
    exact ⟨behind, hread,
      (parseValueWith_sound hstrtod hsound).reads hterminated hread, hrest⟩
  generalize htext : buffer.rest = text at h
  cases h with
  | null rest =>
      refine ⟨buffer.advance 4, ?_, ?_⟩
      · rw [parseValueWith.eq_def, if_pos (startsWith_of_rest htext (by decide))]
      · rw [ParseBuffer.rest_advance, htext]
        rfl
  | false rest =>
      refine ⟨buffer.advance 5, ?_, ?_⟩
      · have hnull : ¬buffer.startsWith nullText = true := not_startsWith htext (by decide)
        rw [parseValueWith.eq_def, if_neg hnull, if_pos (startsWith_of_rest htext (by decide))]
      · rw [ParseBuffer.rest_advance, htext]
        rfl
  | true rest =>
      refine ⟨buffer.advance 4, ?_, ?_⟩
      · have hnull : ¬buffer.startsWith nullText = true := not_startsWith htext (by decide)
        have hfalse : ¬buffer.startsWith falseText = true := not_startsWith htext (by decide)
        rw [parseValueWith.eq_def, if_neg hnull, if_neg hfalse,
          if_pos (startsWith_of_rest htext (by decide))]
      · rw [ParseBuffer.rest_advance, htext]
        rfl
  | string hstring =>
      obtain ⟨t, rfl⟩ := readString_head _ _ _ hstring
      rw [parseValueWith_of_head htext (by decide) (by decide) (by decide), if_pos rfl]
      exact (parseString_complete hallocates).exists_map hterminated (htext.symm ▸ hstring)
        CJsonItem.string
  | @number c text value n hc hread =>
      have hne {d : UInt8} (hd : d ≠ 45 ∧ ¬(48 ≤ d ∧ d ≤ 57)) : c ≠ d := by
        rintro rfl
        exact hc.elim hd.1 hd.2
      rw [parseValueWith_of_head htext (hne (by decide)) (hne (by decide)) (hne (by decide)),
        if_neg (hne (by decide)), if_pos hc]
      refine ⟨_, parseNumber_of_strtod (htext.symm ▸ hread), ?_⟩
      rw [ParseBuffer.rest_advance, htext]
      rfl
  | @array grammar text rest child hgrammar hchild =>
      obtain ⟨value, hvalue, hcomplete, hsound', hstarts⟩ := hnested grammar hgrammar
      obtain ⟨t, rfl⟩ : ∃ t, text = 91 :: t := by
        cases hchild with
        | empty => exact ⟨_, rfl⟩
        | items => exact ⟨_, rfl⟩
      have harray : Complete (Bracketed IsBlank 91 44 93 grammar)
          (parseSequence env 91 93 value) :=
        parseSequence_complete hallocates hcomplete hsound' (hstarts 93 (.inl rfl)) (by decide)
          (by decide) (by decide)
      subst hvalue
      rw [parseValueWith_of_head htext (by decide) (by decide) (by decide), if_neg (by decide),
        if_neg (by decide), if_pos rfl]
      exact harray.exists_map hterminated (htext.symm ▸ hchild) CJsonItem.array
  | @object grammar text rest child hgrammar hchild =>
      obtain ⟨value, hvalue, hcomplete, hsound', hstarts⟩ := hnested grammar hgrammar
      obtain ⟨t, rfl⟩ : ∃ t, text = 123 :: t := by
        cases hchild with
        | empty => exact ⟨_, rfl⟩
        | items => exact ⟨_, rfl⟩
      have hmember : StartsBefore (JsonMember ReadString grammar) 125 := by
        rintro _ _ _ ⟨hname, _, _, _⟩
        obtain ⟨t, rfl⟩ := readString_head _ _ _ hname
        exact ⟨QUOTE, t, rfl, by decide, by decide⟩
      have hobject : Complete (Bracketed IsBlank 123 44 125 (JsonMember ReadString grammar))
          (parseSequence env 123 125 (parseMember env value)) :=
        parseSequence_complete hallocates
          (parseMember_complete hallocates hcomplete hsound' (hstarts 125 (.inr rfl)))
          (parseMember_sound hsound') hmember (by decide) (by decide) (by decide)
      subst hvalue
      rw [parseValueWith_of_head htext (by decide) (by decide) (by decide), if_neg (by decide),
        if_neg (by decide), if_neg (by decide), if_pos rfl]
      simp only [parseObject, ParseBuffer.canAccess_of_rest htext, if_true]
      exact hobject.exists_map hterminated (htext.symm ▸ hchild) CJsonItem.object

end ValueWith

end Values

end Reading

end Config
end EVdeSwitch
