import EVdeSwitch.Config.Opts

/-!
# OptString — the short options

`build_optstring` of `src/config/opts.c` tells `getopt_long` which short options there are.  The
string is built in memory that `malloc` has not cleared, and `strchr` looks for a character in the
string while it has no end yet.
-/

namespace EVdeSwitch
namespace Config

open EVdeSwitch.Utils

/-- `struct option`, as far as it is read here; `val` is an `int`. -/
structure OptEntry where
  has_arg : Int
  val : BitVec 32
  deriving DecidableEq, Repr

namespace OptEntry

def value (o : OptEntry) : Nat :=
  GET_VAL o.val.toNat

def char (o : OptEntry) : UInt8 :=
  UInt8.ofNat o.value

/-- Behind the blank and up to the tilde. -/
def Printable (o : OptEntry) : Prop :=
  o.value > ' '.toNat ∧ o.value ≤ '~'.toNat

instance (o : OptEntry) : Decidable o.Printable :=
  inferInstanceAs (Decidable (_ ∧ _))

/-- The option in the string, with `:` if it takes an argument. -/
def text (o : OptEntry) : List UInt8 :=
  o.char :: if o.has_arg ≠ 0 then [58] else []

end OptEntry

/-! ## `build_optstring` -/

/-- The memory of the string, cut in two where `opt_ptr` points to. -/
structure OptBuffer where
  built : List UInt8
  behind : List UInt8
  deriving DecidableEq, Repr

/-- `*opt_ptr++ = c` -/
def OptBuffer.put (buffer : OptBuffer) (c : UInt8) : Except Halt OptBuffer :=
  match buffer.behind with
  | [] => .error .crash
  | _ :: behind =>
      .ok
        { built := buffer.built ++ [c]
          behind := behind }

/-- Whether `strchr` finds a character other than NUL; it must not come to the end of the memory. -/
def strchr : List UInt8 → UInt8 → Except Halt Bool
  | [], _ => .error .crash
  | b :: bytes, c => if b = c then .ok true else if b = 0 then .ok false else strchr bytes c

/-- The body of the loop. -/
def appendOption (buffer : OptBuffer) (o : OptEntry) : Except Halt OptBuffer :=
  if o.Printable then
    (strchr (buffer.built ++ buffer.behind) o.char).bind fun found =>
      if found then
        .ok buffer
      else
        -- a new option; the colon says that it takes an argument
        (buffer.put o.char).bind fun buffer =>
          if o.has_arg ≠ 0 then buffer.put 58 else .ok buffer
  else
    .ok buffer

/-- The loop, for `count` entries of the table. -/
def appendOptions : List OptEntry → Nat → OptBuffer → Except Halt OptBuffer
  | _, 0, buffer => .ok buffer
  | [], _ + 1, _ => .error .crash
  | o :: opts, count + 1, buffer =>
      (appendOption buffer o).bind fun buffer => appendOptions opts count buffer

/-- `size` bytes of the heap. -/
def heapBlock (stale : Nat → UInt8) (size : Nat) : List UInt8 :=
  (List.range size).map stale

/-- The table may be the null pointer, and so may be the answer of `malloc`; `stale` is what was in
the memory before.  An `int` that overflows is undefined. -/
def buildOptstring (opts : Option (List OptEntry)) (total_options : Int)
    (malloc : Option (Nat → UInt8)) : Except Halt (Option (List UInt8)) :=
  match opts with
  | none => .ok none
  | some opts =>
      if total_options ≤ 0 then
        .ok none
      -- the argument of `malloc` is computed as an `int`
      else if 2 * total_options ≥ 2 ^ 31 then
        .error .crash
      else
        match malloc with
        | none => .ok none
        | some stale =>
            let optstring : OptBuffer :=
              { built := []
                behind := heapBlock stale (2 * total_options).toNat }
            (appendOptions opts (total_options - 1).toNat optstring).bind fun buffer =>
              (buffer.put 0).map fun buffer =>
                some ((buffer.built ++ buffer.behind).takeWhile (· ≠ 0))

/-! ## The options that are to be advertised -/

/-- The entry has a character that no entry before it has. -/
def Brings (earlier : List OptEntry) (o : OptEntry) : Prop :=
  o.Printable ∧ ∀ p ∈ earlier, p.value ≠ o.value

instance (earlier : List OptEntry) (o : OptEntry) : Decidable (Brings earlier o) :=
  inferInstanceAs (Decidable (_ ∧ _))

/-- The entries with a new character, in the order of the table. -/
def firstOptions (earlier : List OptEntry) : List OptEntry → List OptEntry
  | [] => []
  | o :: opts =>
      if Brings earlier o then o :: firstOptions (earlier ++ [o]) opts
      else firstOptions (earlier ++ [o]) opts

def advertised (opts : List OptEntry) : List UInt8 :=
  (firstOptions [] opts).flatMap OptEntry.text

/-- The entries in question are those with a new character where they stand. -/
theorem mem_firstOptions_iff {earlier opts : List OptEntry} {o : OptEntry} :
    o ∈ firstOptions earlier opts ↔
      ∃ before after, opts = before ++ o :: after ∧ Brings (earlier ++ before) o := by
  -- what has been read moves from the table to `earlier`
  induction opts generalizing earlier with
  | nil => simp [firstOptions]
  | cons p opts ih =>
      have hcons : o ∈ firstOptions earlier (p :: opts) ↔
          (p = o ∧ Brings earlier o) ∨ o ∈ firstOptions (earlier ++ [p]) opts := by
        rw [firstOptions]
        split
        · rename_i hbrings
          rw [List.mem_cons]
          refine or_congr_left ⟨?_, fun h => h.1.symm⟩
          rintro rfl
          exact ⟨rfl, hbrings⟩
        · rename_i hbrings
          refine (or_iff_right ?_).symm
          rintro ⟨rfl, h⟩
          exact hbrings h
      rw [hcons, ih]
      constructor
      · rintro (⟨rfl, hbrings⟩ | ⟨before, after, rfl, hbrings⟩)
        · exact ⟨[], opts, rfl, by rwa [List.append_nil]⟩
        · refine ⟨p :: before, after, rfl, ?_⟩
          rwa [List.append_assoc, List.singleton_append] at hbrings
      · rintro ⟨before, after, heq, hbrings⟩
        -- the entry is the first one of what is left, or behind it
        cases before with
        | nil =>
            cases heq
            rw [List.append_nil] at hbrings
            exact Or.inl ⟨rfl, hbrings⟩
        | cons q before =>
            cases heq
            refine Or.inr ⟨before, after, rfl, ?_⟩
            rwa [List.append_assoc, List.singleton_append]

/-- They are in the order of the table, and no character is among them twice. -/
theorem firstOptions_ordered (earlier opts : List OptEntry) :
    (firstOptions earlier opts).Sublist opts ∧
      (firstOptions earlier opts).Pairwise fun o p => o.value ≠ p.value := by
  induction opts generalizing earlier with
  | nil => exact ⟨List.Sublist.refl _, List.Pairwise.nil⟩
  | cons o opts ih =>
      rcases ih (earlier ++ [o]) with ⟨hsublist, hpairwise⟩
      rw [firstOptions]
      split
      · refine ⟨hsublist.cons_cons o, List.pairwise_cons.2 ⟨fun p hp => ?_, hpairwise⟩⟩
        rcases mem_firstOptions_iff.1 hp with ⟨before, after, _, hbrings⟩
        exact hbrings.2 o (by simp)
      · exact ⟨hsublist.cons o, hpairwise⟩

theorem firstOptions_append (earlier opts opts' : List OptEntry) :
    firstOptions earlier (opts ++ opts') =
      firstOptions earlier opts ++ firstOptions (earlier ++ opts) opts' := by
  induction opts generalizing earlier with
  | nil => rw [List.nil_append, firstOptions, List.nil_append, List.append_nil]
  | cons o opts ih =>
      rw [List.cons_append, firstOptions, firstOptions, ih, List.append_assoc, List.singleton_append]
      split
      · rfl
      · rfl

/-- An entry that brings nothing leaves the string as it is. -/
theorem advertised_concat (opts : List OptEntry) (o : OptEntry) :
    advertised (opts ++ [o]) = advertised opts ++ if Brings opts o then o.text else [] := by
  rw [advertised, firstOptions_append, List.flatMap_append, List.nil_append, firstOptions,
    firstOptions, advertised]
  split
  · rw [List.flatMap_cons, List.flatMap_nil, List.append_nil]
  · rw [List.flatMap_nil]

/-- What is advertised for the first entries comes first. -/
theorem advertised_prefix (opts more : List OptEntry) :
    ∃ rest, advertised (opts ++ more) = advertised opts ++ rest := by
  refine ⟨(firstOptions ([] ++ opts) more).flatMap OptEntry.text, ?_⟩
  rw [advertised, firstOptions_append, List.flatMap_append, advertised]

/-- Every character of the table is advertised. -/
theorem char_mem_advertised {opts : List OptEntry} {o : OptEntry} (hmem : o ∈ opts)
    (hprintable : o.Printable) : o.char ∈ advertised opts := by
  -- one more entry at the end: the string so far does not change
  induction opts using List.reverseRecOn generalizing o with
  | nil => cases hmem
  | append_singleton opts p ih =>
      rw [advertised_concat]
      rcases List.mem_append.1 hmem with hold | hlast
      · exact List.mem_append_left _ (ih hold hprintable)
      · rw [List.mem_singleton] at hlast
        subst hlast
        by_cases hbrings : Brings opts o
        · rw [if_pos hbrings]
          exact List.mem_append_right _ List.mem_cons_self
        · -- an entry before has the same character
          have hearlier : ∃ q ∈ opts, q.value = o.value := by
            by_contra hnone
            push Not at hnone
            exact hbrings ⟨hprintable, hnone⟩
          rcases hearlier with ⟨q, hq, hvalue⟩
          have hchar : q.char = o.char := congrArg UInt8.ofNat hvalue
          have hq' : q.Printable := by
            rw [OptEntry.Printable, hvalue]
            exact hprintable
          rw [← hchar]
          exact List.mem_append_left _ (ih hq hq')

theorem length_text_le (o : OptEntry) : o.text.length ≤ 2 := by
  rw [OptEntry.text]
  split <;> simp

theorem length_advertised_le (opts : List OptEntry) :
    (advertised opts).length ≤ 2 * opts.length := by
  induction opts using List.reverseRecOn with
  | nil => exact le_refl _
  | append_singleton opts o ih =>
      have htext := length_text_le o
      rw [advertised_concat, List.length_append, List.length_append, List.length_singleton]
      split
      · omega
      · rw [List.length_nil]
        omega

theorem nonzero_of_mem_advertised {opts : List OptEntry} {b : UInt8} (h : b ∈ advertised opts) :
    b ≠ 0 := by
  rcases List.mem_flatMap.1 h with ⟨o, ho, hb⟩
  rcases mem_firstOptions_iff.1 ho with ⟨before, after, _, ⟨hblank, htilde⟩, _⟩
  -- printable characters are above the blank
  have hchar : o.char ≠ 0 := by
    have hblank' : 32 < o.value := hblank
    have htilde' : o.value ≤ 126 := htilde
    intro hzero
    have hvalue := congrArg UInt8.toNat hzero
    rw [OptEntry.char, UInt8.toNat_ofNat_of_lt' (by change o.value < 256; omega)] at hvalue
    change o.value = 0 at hvalue
    omega
  rcases List.mem_cons.1 hb with rfl | hcolon
  · exact hchar
  · split at hcolon
    · rw [List.mem_singleton.1 hcolon]
      decide
    · cases hcolon

/-! ## `strchr` -/

theorem strchr_of_mem {built : List UInt8} {c : UInt8} (hzero : ∀ b ∈ built, b ≠ 0) (hc : c ∈ built)
    (behind : List UInt8) : strchr (built ++ behind) c = .ok true := by
  induction built with
  | nil => cases hc
  | cons b built ih =>
      rw [List.cons_append, strchr]
      by_cases heq : b = c
      · rw [if_pos heq]
      · rw [if_neg heq, if_neg (hzero b List.mem_cons_self)]
        have hc' : c ∈ built := (List.mem_cons.1 hc).resolve_left (Ne.symm heq)
        exact ih (fun b' hb' => hzero b' (List.mem_cons_of_mem _ hb')) hc'

theorem strchr_of_notMem {built : List UInt8} {c : UInt8} (hzero : ∀ b ∈ built, b ≠ 0)
    (hc : c ∉ built) (behind : List UInt8) : strchr (built ++ behind) c = strchr behind c := by
  induction built with
  | nil => rfl
  | cons b built ih =>
      have hne : b ≠ c := fun heq => hc (heq ▸ List.mem_cons_self)
      rw [List.cons_append, strchr, if_neg hne, if_neg (hzero b List.mem_cons_self)]
      exact ih (fun b' hb' => hzero b' (List.mem_cons_of_mem _ hb'))
        (fun hmem => hc (List.mem_cons_of_mem _ hmem))

/-- A character is not found where a NUL comes before it. -/
theorem strchr_eq_false_iff {bytes : List UInt8} {c : UInt8} (hc : c ≠ 0) :
    strchr bytes c = .ok false ↔
      ∃ j : Nat, bytes[j]? = some 0 ∧ ∀ k < j, bytes[k]? ≠ some c := by
  induction bytes with
  -- `strchr` runs out of the memory
  | nil => simp [strchr]
  | cons b bytes ih =>
      rw [strchr]
      by_cases heq : b = c
      · rw [if_pos heq]
        refine iff_of_false (by simp) ?_
        rintro ⟨j, hzero, hbefore⟩
        cases j with
        | zero =>
            rw [List.getElem?_cons_zero, Option.some.injEq] at hzero
            exact hc (heq.symm.trans hzero)
        | succ j => exact hbefore 0 (Nat.succ_pos j) (by rw [List.getElem?_cons_zero, heq])
      · rw [if_neg heq]
        -- a NUL ends the search, any other byte is passed over
        by_cases hzero : b = 0
        · rw [if_pos hzero]
          refine iff_of_true rfl ⟨0, by rw [List.getElem?_cons_zero, hzero], fun k hk => ?_⟩
          exact absurd hk (Nat.not_lt_zero k)
        · rw [if_neg hzero, ih]
          constructor
          · rintro ⟨j, hj, hbefore⟩
            refine ⟨j + 1, hj, fun k hk => ?_⟩
            cases k with
            | zero => simpa using heq
            | succ k => exact hbefore k (Nat.lt_of_succ_lt_succ hk)
          · rintro ⟨j, hj, hbefore⟩
            cases j with
            | zero => exact absurd (by simpa using hj) hzero
            | succ j => exact ⟨j, hj, fun k hk => hbefore (k + 1) (Nat.succ_lt_succ hk)⟩

/-! ## The loop -/

/-- The buffer when all is well and these entries have been read. -/
def bufferAt (block : List UInt8) (opts : List OptEntry) : OptBuffer :=
  { built := advertised opts
    behind := block.drop (advertised opts).length }

/-- A new character is not found in what `strchr` looks at. -/
def Unhidden (block : List UInt8) (earlier : List OptEntry) (o : OptEntry) : Prop :=
  Brings earlier o →
    strchr (advertised earlier ++ block.drop (advertised earlier).length) o.char = .ok false

theorem put_eq_ok {buffer buffer' : OptBuffer} {c : UInt8} (h : buffer.put c = .ok buffer') :
    buffer'.built = buffer.built ++ [c] := by
  rcases buffer with ⟨built, _ | ⟨b, behind⟩⟩
  · cases h
  · cases h
    rfl

/-- What one pass of the loop can do. -/
theorem appendOption_cases {buffer buffer' : OptBuffer} {o : OptEntry}
    (h : appendOption buffer o = .ok buffer') :
    buffer' = buffer ∨
      (o.Printable ∧ strchr (buffer.built ++ buffer.behind) o.char = .ok false ∧
        buffer'.built = buffer.built ++ o.text) := by
  rw [appendOption] at h
  split at h
  · rename_i hprintable
    cases hfound : strchr (buffer.built ++ buffer.behind) o.char with
    | error halt =>
        rw [hfound] at h
        cases h
    | ok found =>
        rw [hfound] at h
        cases found with
        | true =>
            cases h
            exact Or.inl rfl
        | false =>
            refine Or.inr ⟨hprintable, rfl, ?_⟩
            simp only [Except.bind, Bool.false_eq_true, if_false] at h
            cases hput : buffer.put o.char with
            | error halt =>
                rw [hput] at h
                cases h
            | ok next =>
                rw [hput] at h
                have hnext := put_eq_ok hput
                rw [OptEntry.text]
                dsimp only at h
                split at h
                -- a second character is written, the colon
                · rename_i harg
                  rw [put_eq_ok h, hnext, if_pos harg, List.append_assoc, List.singleton_append]
                · rename_i harg
                  cases h
                  rw [hnext, if_neg harg]
  · cases h
    exact Or.inl rfl

/-- An entry that brings nothing is passed over. -/
theorem appendOption_of_not_brings {opts : List OptEntry} {o : OptEntry} (h : ¬ Brings opts o)
    (behind : List UInt8) :
    appendOption { built := advertised opts, behind := behind } o =
      .ok { built := advertised opts, behind := behind } := by
  by_cases hprintable : o.Printable
  · have hmem : o.char ∈ advertised opts := by
      -- the character is in the string, in front of what has been in the memory
      have hlast : o ∈ opts ++ [o] := List.mem_append_right opts List.mem_cons_self
      have hconcat := char_mem_advertised hlast hprintable
      rwa [advertised_concat, if_neg h, List.append_nil] at hconcat
    have hfound := strchr_of_mem (fun _ => nonzero_of_mem_advertised) hmem behind
    rw [appendOption, if_pos hprintable, hfound]
    rfl
  · rw [appendOption, if_neg hprintable]

/-- An entry that brings a character is written where it is not hidden. -/
theorem appendOption_of_brings {block : List UInt8} {opts : List OptEntry} {o : OptEntry}
    (h : Brings opts o) (hunhidden : Unhidden block opts o)
    (hroom : (advertised opts).length + 2 ≤ block.length) :
    appendOption (bufferAt block opts) o = .ok (bufferAt block (opts ++ [o])) := by
  have hfound : strchr ((bufferAt block opts).built ++ (bufferAt block opts).behind) o.char =
      .ok false := hunhidden h
  -- two bytes are left, for the character and its colon
  have hbehind : ∃ b b' rest, block.drop (advertised opts).length = b :: b' :: rest := by
    have hlength : 2 ≤ (block.drop (advertised opts).length).length := by
      rw [List.length_drop]
      omega
    match block.drop (advertised opts).length, hlength with
    | b :: b' :: rest, _ => exact ⟨b, b', rest, rfl⟩
  rcases hbehind with ⟨b, b', rest, hdrop⟩
  have hrest : block.drop ((advertised opts).length + 2) = rest := by
    rw [← List.drop_drop, hdrop]
    rfl
  have hnext : block.drop ((advertised opts).length + 1) = b' :: rest := by
    rw [← List.drop_drop, hdrop]
    rfl
  rw [appendOption, if_pos h.1, hfound]
  simp only [Except.bind, Bool.false_eq_true, if_false, bufferAt, hdrop, OptBuffer.put,
    advertised_concat, if_pos h, OptEntry.text]
  by_cases harg : o.has_arg ≠ 0
  · simp only [if_pos harg, List.length_append, List.length_cons, List.length_nil, hrest,
      List.append_assoc, List.singleton_append]
  · simp only [if_neg harg, List.length_append, List.length_cons, List.length_nil, Nat.zero_add,
      hnext]

/-- One pass of the loop from a buffer where all is well. -/
theorem appendOption_bufferAt {block : List UInt8} {opts : List OptEntry} {o : OptEntry}
    (hunhidden : Unhidden block opts o) (hroom : (advertised opts).length + 2 ≤ block.length) :
    appendOption (bufferAt block opts) o = .ok (bufferAt block (opts ++ [o])) := by
  by_cases h : Brings opts o
  · exact appendOption_of_brings h hunhidden hroom
  · rw [bufferAt, bufferAt, advertised_concat, if_neg h, List.append_nil]
    exact appendOption_of_not_brings h _

/-! ## Where a character is hidden -/

/-- `c` is missing behind `built`: it is still found in the memory, or another character stands in
its place. -/
def Missing (built : List UInt8) (c : UInt8) (buffer : OptBuffer) : Prop :=
  (buffer.built = built ∧ strchr (buffer.built ++ buffer.behind) c = .ok true) ∨
    ∃ d rest, d ≠ c ∧ buffer.built = built ++ d :: rest

theorem Missing.appendOption {built : List UInt8} {c : UInt8} {buffer buffer' : OptBuffer}
    {o : OptEntry} (h : Missing built c buffer) (hstep : appendOption buffer o = .ok buffer') :
    Missing built c buffer' := by
  -- a pass adds nothing, or text that begins with another character
  rcases appendOption_cases hstep with rfl | ⟨_, hfound, hbuilt⟩
  · exact h
  · rcases h with ⟨hsame, hhidden⟩ | ⟨d, rest, hd, hother⟩
    · refine Or.inr ⟨o.char, if o.has_arg ≠ 0 then [58] else [], ?_, ?_⟩
      · intro heq
        rw [heq, hhidden] at hfound
        cases hfound
      · rw [hbuilt, hsame, OptEntry.text]
    · refine Or.inr ⟨d, rest ++ o.text, hd, ?_⟩
      rw [hbuilt, hother, List.append_assoc, List.cons_append]

theorem Missing.appendOptions {built : List UInt8} {c : UInt8} {count : Nat}
    {opts : List OptEntry} {buffer buffer' : OptBuffer} (h : Missing built c buffer)
    (hrun : appendOptions opts count buffer = .ok buffer') : Missing built c buffer' := by
  -- what a pass keeps, the loop keeps
  induction count generalizing opts buffer with
  | zero =>
      rw [Config.appendOptions] at hrun
      cases hrun
      exact h
  | succ count ih =>
      cases opts with
      | nil => cases hrun
      | cons o opts =>
          rw [Config.appendOptions] at hrun
          cases hstep : Config.appendOption buffer o with
          | error halt =>
              rw [hstep] at hrun
              cases hrun
          | ok next =>
              rw [hstep] at hrun
              exact ih (h.appendOption hstep) hrun

theorem Missing.ne {built : List UInt8} {c : UInt8} {buffer : OptBuffer}
    (h : Missing built c buffer) (rest : List UInt8) : buffer.built ≠ built ++ c :: rest := by
  intro heq
  rcases h with ⟨hsame, _⟩ | ⟨d, rest', hd, hother⟩
  -- the string has ended where the character should be
  · rw [hsame] at heq
    have hlength := congrArg List.length heq
    rw [List.length_append, List.length_cons] at hlength
    omega
  -- another character stands there
  · rw [hother] at heq
    exact hd (List.cons.inj (List.append_cancel_left heq)).1

/-- Once a character has been hidden, the string will not be the right one. -/
theorem appendOptions_of_hidden {block : List UInt8} {earlier : List OptEntry} {o : OptEntry}
    (hhidden : ¬ Unhidden block earlier o) {opts : List OptEntry} {count : Nat}
    {buffer : OptBuffer}
    (hrun : appendOptions (o :: opts) (count + 1) (bufferAt block earlier) = .ok buffer)
    (more : List OptEntry) : buffer.built ≠ advertised (earlier ++ o :: more) := by
  have hbrings : Brings earlier o ∧
      strchr (advertised earlier ++ block.drop (advertised earlier).length) o.char ≠ .ok false := by
    simpa only [Unhidden, not_forall, exists_prop] using hhidden
  rcases hbrings with ⟨hbrings, hfound⟩
  -- the pass has not written the character, and no later one writes it there
  have hmissing : Missing (advertised earlier) o.char buffer := by
    rw [appendOptions] at hrun
    cases hstep : appendOption (bufferAt block earlier) o with
    | error halt =>
        rw [hstep] at hrun
        cases hrun
    | ok next =>
        rw [hstep] at hrun
        rcases appendOption_cases hstep with rfl | ⟨_, hnot, _⟩
        · refine Missing.appendOptions (Or.inl ⟨rfl, ?_⟩) hrun
          -- without an end of the memory in the way the pass has found the character
          cases hresult : strchr (advertised earlier ++
              block.drop (advertised earlier).length) o.char with
          | error halt =>
              rw [appendOption, if_pos hbrings.1, bufferAt, hresult] at hstep
              cases hstep
          | ok found =>
              cases found with
              | true => exact hresult
              | false => exact absurd hresult hfound
        · exact absurd hnot hfound
  rcases advertised_prefix (earlier ++ [o]) more with ⟨rest, hextended⟩
  rw [List.append_assoc, List.singleton_append, advertised_concat, if_pos hbrings, OptEntry.text,
    List.append_assoc, List.cons_append] at hextended
  rw [hextended]
  exact hmissing.ne _

theorem forall_lt_succ_cons_iff {P : List OptEntry → OptEntry → Prop} {earlier opts : List OptEntry}
    {o : OptEntry} {count : Nat} :
    (∀ i < count + 1, ∀ p, (o :: opts)[i]? = some p → P (earlier ++ (o :: opts).take i) p) ↔
      P earlier o ∧ ∀ i < count, ∀ p, opts[i]? = some p → P (earlier ++ [o] ++ opts.take i) p := by
  constructor
  · intro h
    refine ⟨by simpa using h 0 (Nat.succ_pos count) o rfl, fun i hi p hp => ?_⟩
    have hnext := h (i + 1) (Nat.succ_lt_succ hi) p hp
    rwa [List.take_succ_cons, List.append_cons] at hnext
  · rintro ⟨hfirst, hrest⟩ i hi p hp
    cases i with
    | zero =>
        cases hp
        simpa using hfirst
    | succ i =>
        have hnext := hrest i (Nat.lt_of_succ_lt_succ hi) p hp
        rwa [List.take_succ_cons, List.append_cons]

/-- The loop: all is well as long as nothing is hidden, and never again after that. -/
theorem appendOptions_bufferAt (block : List UInt8) (earlier opts : List OptEntry) {count : Nat}
    (hcount : count ≤ opts.length) (hroom : 2 * (earlier.length + count) ≤ block.length) :
    ((∀ i < count, ∀ o, opts[i]? = some o → Unhidden block (earlier ++ opts.take i) o) →
        appendOptions opts count (bufferAt block earlier) =
          .ok (bufferAt block (earlier ++ opts.take count))) ∧
      (¬ (∀ i < count, ∀ o, opts[i]? = some o → Unhidden block (earlier ++ opts.take i) o) →
        ∀ buffer, appendOptions opts count (bufferAt block earlier) = .ok buffer →
          ∀ more, buffer.built ≠ advertised (earlier ++ opts.take count ++ more)) := by
  -- the entries read so far go to `earlier`, and the buffer has their text
  induction count generalizing earlier opts with
  | zero =>
      refine ⟨fun _ => ?_, fun hnot => absurd (fun i hi => absurd hi (Nat.not_lt_zero i)) hnot⟩
      rw [appendOptions, List.take_zero, List.append_nil]
  | succ count ih =>
      cases opts with
      | nil => exact absurd hcount (Nat.not_succ_le_zero count)
      | cons o opts =>
          have hcount' : count ≤ opts.length := Nat.le_of_succ_le_succ hcount
          have hlength := length_advertised_le earlier
          have hroom' : 2 * ((earlier ++ [o]).length + count) ≤ block.length := by
            rw [List.length_append, List.length_singleton]
            omega
          have hsplit : earlier ++ (o :: opts).take (count + 1) =
              earlier ++ [o] ++ opts.take count := by
            rw [List.take_succ_cons, List.append_cons]
          rw [forall_lt_succ_cons_iff (P := Unhidden block), hsplit]
          -- either this pass is right and the rest decides, or the string is lost here
          by_cases hunhidden : Unhidden block earlier o
          · have hstep : appendOptions (o :: opts) (count + 1) (bufferAt block earlier) =
                appendOptions opts count (bufferAt block (earlier ++ [o])) := by
              rw [appendOptions, appendOption_bufferAt hunhidden (by omega)]
              rfl
            rw [hstep, and_iff_right hunhidden]
            exact ih _ _ hcount' hroom'
          · refine ⟨fun h => absurd h.1 hunhidden, fun _ buffer hrun more => ?_⟩
            rw [List.append_assoc, List.append_assoc, List.singleton_append]
            exact appendOptions_of_hidden hunhidden hrun _

/-- No pass of the loop writes a NUL. -/
theorem appendOptions_nonzero {count : Nat} {opts : List OptEntry} {buffer buffer' : OptBuffer}
    (h : ∀ b ∈ buffer.built, b ≠ 0) (hrun : appendOptions opts count buffer = .ok buffer') :
    ∀ b ∈ buffer'.built, b ≠ 0 := by
  induction count generalizing opts buffer with
  | zero =>
      rw [appendOptions] at hrun
      cases hrun
      exact h
  | succ count ih =>
      cases opts with
      | nil => cases hrun
      | cons o opts =>
          rw [appendOptions] at hrun
          cases hstep : appendOption buffer o with
          | error halt =>
              rw [hstep] at hrun
              cases hrun
          | ok next =>
              rw [hstep] at hrun
              refine ih ?_ hrun
              rcases appendOption_cases hstep with rfl | ⟨hprintable, _, hbuilt⟩
              · exact h
              · intro b hb
                rw [hbuilt] at hb
                rcases List.mem_append.1 hb with hold | hnew
                · exact h b hold
                -- the text of one printable entry is that of a table of its own
                · have halone : o.text = advertised [o] := by
                    have hconcat := advertised_concat [] o
                    rw [if_pos ⟨hprintable, fun p hp => absurd hp List.not_mem_nil⟩] at hconcat
                    exact hconcat.symm
                  rw [halone] at hnew
                  exact nonzero_of_mem_advertised hnew

/-! ## When every option is advertised -/

/-- What has been in the memory behind the string ends before the character comes. -/
def Shows (stale : Nat → UInt8) (size : Nat) (earlier : List OptEntry) (o : OptEntry) : Prop :=
  o.char ∉ advertised earlier ∧
    ∃ j < size, (advertised earlier).length ≤ j ∧ stale j = 0 ∧
      ∀ k, (advertised earlier).length ≤ k → k < j → stale k ≠ o.char

theorem getElem?_heapBlock_drop (stale : Nat → UInt8) (size start i : Nat) :
    ((heapBlock stale size).drop start)[i]? =
      if start + i < size then some (stale (start + i)) else none := by
  rw [List.getElem?_drop, heapBlock, List.getElem?_map]
  split
  · rename_i hlt
    rw [List.getElem?_range hlt, Option.map_some]
  · rename_i hge
    rw [List.getElem?_eq_none (by rw [List.length_range]; omega), Option.map_none]

theorem char_ne_zero {o : OptEntry} (h : o.Printable) : o.char ≠ 0 :=
  nonzero_of_mem_advertised (char_mem_advertised (List.mem_singleton_self o) h)

theorem unhidden_iff_shows (stale : Nat → UInt8) (size : Nat) (earlier : List OptEntry)
    (o : OptEntry) :
    Unhidden (heapBlock stale size) earlier o ↔ (Brings earlier o → Shows stale size earlier o) := by
  refine forall_congr' fun hbrings => ?_
  have hzero : ∀ b ∈ advertised earlier, b ≠ 0 := fun _ => nonzero_of_mem_advertised
  -- what is in the string is found there; otherwise the old bytes decide
  by_cases hmem : o.char ∈ advertised earlier
  · rw [strchr_of_mem hzero hmem]
    refine iff_of_false (by simp) ?_
    exact fun hshows => hshows.1 hmem
  · rw [strchr_of_notMem hzero hmem, strchr_eq_false_iff (char_ne_zero hbrings.1), Shows]
    simp only [getElem?_heapBlock_drop]
    rw [and_iff_right hmem]
    constructor
    · rintro ⟨i, hi, hbefore⟩
      split at hi
      · rename_i hlt
        refine ⟨_, hlt, Nat.le_add_right _ _, Option.some.inj hi, fun k hle hk heq => ?_⟩
        have hlt' : (advertised earlier).length + (k - (advertised earlier).length) < size := by
          omega
        have hne := hbefore (k - (advertised earlier).length) (by omega)
        rw [if_pos hlt', Nat.add_sub_cancel' hle, heq] at hne
        exact hne rfl
      · cases hi
    · rintro ⟨j, hlt, hle, hj, hbefore⟩
      refine ⟨j - (advertised earlier).length, ?_, fun k hk => ?_⟩
      · rw [Nat.add_sub_cancel' hle, if_pos hlt, hj]
      · rw [if_pos (by omega)]
        intro heq
        exact hbefore _ (Nat.le_add_right _ _) (by omega) (Option.some.inj heq)

theorem takeWhile_put {buffer buffer' : OptBuffer} (hzero : ∀ b ∈ buffer.built, b ≠ 0)
    (h : buffer.put 0 = .ok buffer') :
    (buffer'.built ++ buffer'.behind).takeWhile (· ≠ 0) = buffer.built := by
  rw [put_eq_ok h, List.append_assoc, List.takeWhile_append_of_pos (by simpa using hzero),
    List.singleton_append, List.takeWhile_cons_of_neg (by decide), List.append_nil]

/-- The string that is returned is what the loop has built, if there is room for the NUL. -/
theorem buildOptstring_eq_some_iff {opts : List OptEntry} {n : Nat} (hpos : 0 < n)
    (hint : 2 * n < 2 ^ 31) (stale : Nat → UInt8) (string : List UInt8) :
    buildOptstring (some opts) n (some stale) = .ok (some string) ↔
      ∃ buffer, appendOptions opts (n - 1) (bufferAt (heapBlock stale (2 * n)) []) = .ok buffer ∧
        (∃ buffer', buffer.put 0 = .ok buffer') ∧ buffer.built = string := by
  have hcount : ((n : Int) - 1).toNat = n - 1 := by omega
  have hsize : (2 * (n : Int)).toNat = 2 * n := by omega
  have hstart : bufferAt (heapBlock stale (2 * n)) [] =
      { built := [], behind := heapBlock stale (2 * n) } := rfl
  simp only [buildOptstring]
  rw [if_neg (by omega), if_neg (by omega), hcount, hsize, hstart]
  cases hrun : appendOptions opts (n - 1)
      { built := [], behind := heapBlock stale (2 * n) } with
  | error halt => simp [Except.bind]
  | ok buffer =>
      -- the loop writes no NUL, so the string ends at the one written after it
      have hzero := appendOptions_nonzero (fun b hb => absurd hb List.not_mem_nil) hrun
      simp only [Except.bind, Except.ok.injEq, exists_eq_left']
      cases hput : buffer.put 0 with
      | error halt => simp [Except.map]
      | ok buffer' =>
          simp only [Except.map, takeWhile_put hzero hput, Except.ok.injEq, Option.some.injEq,
            exists_eq', true_and]

/-- There is always room for the NUL. -/
theorem exists_put_bufferAt {block : List UInt8} {opts : List OptEntry}
    (h : (advertised opts).length < block.length) (c : UInt8) :
    ∃ buffer, (bufferAt block opts).put c = .ok buffer := by
  rw [bufferAt, List.drop_eq_getElem_cons h]
  exact ⟨_, rfl⟩

/-- Every option is advertised exactly when the size of the memory is an `int`, the last entry
brings no character of its own, and no character is hidden by what has been in the memory. -/
theorem build_optstring_advertises_iff {opts : List OptEntry} {n : Nat} (hpos : 0 < n)
    (hle : n ≤ opts.length) (stale : Nat → UInt8) :
    buildOptstring (some opts) n (some stale) = .ok (some (advertised (opts.take n))) ↔
      2 * n < 2 ^ 31 ∧ (∀ o, opts[n - 1]? = some o → ¬ Brings (opts.take (n - 1)) o) ∧
        ∀ i < n - 1, ∀ o, opts[i]? = some o → Brings (opts.take i) o →
          Shows stale (2 * n) (opts.take i) o := by
  by_cases hint : 2 * n < 2 ^ 31
  · rw [and_iff_right hint, buildOptstring_eq_some_iff hpos hint]
    have hblock : (heapBlock stale (2 * n)).length = 2 * n := by
      rw [heapBlock, List.length_map, List.length_range]
    -- the loop stops one entry before the end
    have hlast : ∃ o, opts[n - 1]? = some o ∧ opts.take n = opts.take (n - 1) ++ [o] := by
      have hlt : n - 1 < opts.length := by omega
      refine ⟨opts[n - 1], List.getElem?_eq_getElem hlt, ?_⟩
      rw [← List.take_succ_eq_append_getElem hlt, Nat.sub_add_cancel hpos]
    rcases hlast with ⟨last, hlast, htake⟩
    have hcount : n - 1 ≤ opts.length := by omega
    have hroom : 2 * (([] : List OptEntry).length + (n - 1)) ≤ (heapBlock stale (2 * n)).length := by
      rw [hblock, List.length_nil]
      omega
    have hloop := appendOptions_bufferAt (heapBlock stale (2 * n)) [] opts hcount hroom
    simp only [List.nil_append, unhidden_iff_shows] at hloop
    have hlast' : (∀ o, opts[n - 1]? = some o → ¬ Brings (opts.take (n - 1)) o) ↔
        ¬ Brings (opts.take (n - 1)) last := by
      simp only [hlast, Option.some.injEq, forall_eq']
    rw [htake, hlast']
    -- without a hidden character the loop advertises all entries but the last
    by_cases hgood : ∀ i < n - 1, ∀ o, opts[i]? = some o → Brings (opts.take i) o →
        Shows stale (2 * n) (opts.take i) o
    · have hfits : (advertised (opts.take (n - 1))).length < (heapBlock stale (2 * n)).length := by
        have hlength := length_advertised_le (opts.take (n - 1))
        rw [List.length_take_of_le hcount] at hlength
        rw [hblock]
        omega
      rw [hloop.1 hgood, and_iff_left hgood, advertised_concat]
      constructor
      -- a character that only the last entry has is missing at the end
      · rintro ⟨buffer, hrun, _, hbuilt⟩ hbrings
        cases hrun
        rw [if_pos hbrings, OptEntry.text, bufferAt] at hbuilt
        simp at hbuilt
      · intro hbrings
        refine ⟨_, rfl, exists_put_bufferAt hfits 0, ?_⟩
        rw [if_neg hbrings, List.append_nil, bufferAt]
    · refine iff_of_false ?_ fun h => hgood h.2
      rintro ⟨buffer, hrun, _, hbuilt⟩
      exact hloop.2 hgood buffer hrun [last] hbuilt
  · refine iff_of_false ?_ fun h => hint h.1
    have hover : ¬ (n : Int) ≤ 0 := by omega
    have hoverflow : 2 * (n : Int) ≥ 2 ^ 31 := by omega
    simp only [buildOptstring]
    rw [if_neg hover, if_pos hoverflow]
    intro h
    cases h

/-- A table with its terminator, in cleared memory. -/
theorem build_optstring_advertises_terminated :
    let opts : List OptEntry := [{ has_arg := 1, val := 99 }, { has_arg := 0, val := 0 }]
    0 < 2 ∧ 2 ≤ opts.length ∧
      buildOptstring (some opts) 2 (some fun _ => 0) = .ok (some (advertised (opts.take 2))) := by
  intro opts
  refine ⟨by decide, by decide, ?_⟩
  refine (build_optstring_advertises_iff (n := 2) (by decide) (by decide) fun _ => 0).2 ?_
  refine ⟨by decide, fun o ho => ?_, fun i hi o ho _ => ?_⟩
  · cases ho
    decide
  · have hi' : i = 0 := by omega
    subst hi'
    cases ho
    exact ⟨by decide, 0, by decide, by decide, rfl, fun k _ hk => absurd hk (Nat.not_lt_zero k)⟩

/-- The table of global options; the first four take an argument. -/
def globalEntries : List OptEntry :=
  List.zipWith (fun o has_arg => { has_arg := has_arg, val := BitVec.ofNat 32 o.val }) global_options
    [1, 1, 1, 1, 0]

/-- The call of `process_necessary_options`, in cleared memory: the answer is `c:m:`, and the third
option is missing. -/
theorem not_build_optstring_third_option :
    buildOptstring (some globalEntries) 3 (some fun _ => 0) = .ok (some [99, 58, 109, 58]) ∧
      advertised (globalEntries.take 3) = [99, 58, 109, 58, 110, 58] ∧
      buildOptstring (some globalEntries) 3 (some fun _ => 0) ≠
        .ok (some (advertised (globalEntries.take 3))) := by
  have hbuilt : buildOptstring (some globalEntries) 3 (some fun _ => 0) =
      .ok (some [99, 58, 109, 58]) := rfl
  have hspec : advertised (globalEntries.take 3) = [99, 58, 109, 58, 110, 58] := by decide
  refine ⟨hbuilt, hspec, ?_⟩
  rw [hbuilt, hspec]
  intro h
  cases h

end Config
end EVdeSwitch
