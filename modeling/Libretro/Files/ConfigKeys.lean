import Libretro.Files.ConfigFile

/-! The keys that lines say, and what lines say that are written with keys and escaped values. -/

namespace Libretro.ConfigFile

open CString List

theorem DumpBuffer.put_flush (buffer : DumpBuffer) (bytes : List UInt8) :
    (buffer.put bytes).flush.file = buffer.flush.file ++ bytes := by
  rw [DumpBuffer.put]
  split
  · exact append_nil _
  · simp only [DumpBuffer.flush]
    split
    · exact congrArg (buffer.file ++ buffer.data ++ ·) (nil_append bytes)
    · exact (append_assoc ..).symm

theorem DumpBuffer.puts_flush (buffer : DumpBuffer) (puts : List (List UInt8)) :
    (puts.foldl DumpBuffer.put buffer).flush.file = buffer.flush.file ++ puts.flatten := by
  induction puts generalizing buffer with
  | nil => exact (append_nil _).symm
  | cons bytes puts ih => rw [foldl_cons, ih, DumpBuffer.put_flush, flatten_cons, append_assoc]

/-- A value with its quotes escaped: the run counts the backslashes right before what is left. -/
@[simp] def escapeScan (run : Nat) : List UInt8 → List UInt8
  | [] => List.replicate run backslash
  | byte :: rest =>
    if byte = quote then
      List.replicate run backslash ++ backslash :: quote :: escapeScan 0 rest
    else byte :: escapeScan (if byte = backslash then run + 1 else 0) rest

theorem trailing_eq (bytes : List UInt8) : trailing bytes = replicate (trailing bytes).length backslash := by
  apply eq_replicate_of_mem
  intro byte listed
  have is := mem_rtakeWhile_imp listed
  exact of_decide_eq_true is

theorem trailing_concat (bytes : List UInt8) (byte : UInt8) : (trailing (bytes ++ [byte])).length =
      if byte = backslash then (trailing bytes).length + 1 else 0 := by
  split
  · rename_i same
    have longer : trailing (bytes ++ [byte]) = trailing bytes ++ [byte] :=
      rtakeWhile_concat_pos _ _ _ (decide_eq_true same)
    rw [longer, length_append]
    rfl
  · rename_i other
    have none : trailing (bytes ++ [byte]) = [] :=
      rtakeWhile_concat_neg _ _ _ fun same => other (of_decide_eq_true same)
    rw [none]
    rfl

theorem trailing_quote (front rest : List UInt8) : trailing (front ++ quote :: rest) = trailing rest := by
  rw [trailing, trailing, rtakeWhile, rtakeWhile, reverse_append,
    reverse_cons, append_assoc, takeWhile_append]
  have stops : ([quote] ++ front.reverse).takeWhile (fun byte => decide (byte = backslash)) = [] :=
    takeWhile_cons_of_neg (by decide)
  split
  · rename_i all
    rw [stops, append_nil, (List.takeWhile_prefix fun byte => decide (byte = backslash)).eq_of_length all]
  · rfl

theorem dumpSegments_flatten (segment value : List UInt8) :
    (dumpSegments segment value).flatten ++ trailing (segment ++ value) =
      segment ++ escapeScan (trailing segment).length value := by
  induction value generalizing segment with
  | nil => rw [dumpSegments, flatten_singleton, append_nil, escapeScan, ← trailing_eq]
  | cons byte rest ih =>
    rw [dumpSegments, escapeScan]
    by_cases quoted : byte = quote
    · rw [if_pos quoted, if_pos quoted, quoted, trailing_quote]
      have later := ih []
      rw [nil_append, nil_append] at later
      rw [flatten_cons, flatten_cons, flatten_cons, append_assoc,
        append_assoc, append_assoc, later, ← trailing_eq]
      rfl
    · rw [if_neg quoted, if_neg quoted]
      have later := ih (segment ++ [byte])
      rw [append_assoc, append_assoc, trailing_concat] at later
      exact later

theorem dumpValue_flatten (value : List UInt8) : (dumpValue value).flatten = escapeScan 0 value := by
  have segments : (dumpSegments [] value).flatten ++ trailing value = escapeScan 0 value :=
    dumpSegments_flatten [] value
  rw [dumpValue, flatten_append, ← segments]
  congr 1
  cases shape : trailing value with
  | nil => rfl
  | cons byte rest => exact flatten_singleton

variable {run offset : Nat} {first : Option Nat} {value rest : List UInt8}

theorem literalScan_run (offset run : Nat) (first : Option Nat) (count : Nat) (rest : List UInt8) :
    literalScan offset run first (replicate count backslash ++ rest) =
      literalScan (offset + count) (run + count) first rest := by
  induction count generalizing offset run with
  | zero => rfl
  | succ count ih =>
    rw [replicate_succ, cons_append, literalScan, if_neg (by decide), if_neg (by decide),
      if_pos rfl, ih]
    congr 1 <;> omega

/-- The quote that closes a value that was written is the one behind it, and without escaping to undo
the value was written as it is. -/
theorem literalScan_escape (clear : (0 : UInt8) ∉ value) (offset run : Nat) (first : Option Nat) :
    ∃ escaped, literalScan offset run first (escapeScan run value ++ quote :: rest) =
        (some (offset + (escapeScan run value).length), first.isSome || escaped) ∧
      (escaped = false → escapeScan run value = value) := by
  induction value generalizing offset run first with
  | nil =>
    rw [escapeScan, literalScan_run, literalScan, if_neg (by decide), if_pos rfl,
      if_pos (by omega), length_replicate]
    refine ⟨_, rfl, fun none => ?_⟩
    obtain rfl : run = 0 := by
      rw [decide_eq_false_iff_not, not_not] at none
      omega
    rfl
  | cons byte rest' ih =>
    rw [mem_cons, not_or] at clear
    rw [escapeScan]
    by_cases quoted : byte = quote
    · rw [if_pos quoted, append_assoc, literalScan_run, cons_append, literalScan,
        if_neg (by decide), if_neg (by decide), if_pos rfl, cons_append, literalScan,
        if_neg (by decide), if_pos rfl, if_neg (by omega)]
      obtain ⟨escaped, ends, -⟩ := ih clear.2 (offset + run + 1 + 1) 0 (first.or (some (offset + run + 1)))
      refine ⟨true, ?_, by rintro ⟨⟩⟩
      rw [ends, length_append, length_replicate, length_cons, length_cons, Bool.or_true]
      have some : (first.or (some (offset + run + 1))).isSome = true := by
        cases first <;> rfl
      rw [some, Bool.true_or]
      congr 2
      omega
    · rw [if_neg quoted, cons_append, literalScan, if_neg (fun same => clear.1 same.symm),
        if_neg quoted]
      obtain ⟨escaped, ends, same⟩ := ih clear.2 (offset + 1) (if byte = backslash then run + 1 else 0) first
      refine ⟨escaped, ?_, fun none => by rw [same none]⟩
      rw [ends, length_cons]
      congr 2
      omega

theorem unescapeScan_run (run count : Nat) (rest : List UInt8) :
    unescapeScan run (replicate count backslash ++ rest) = unescapeScan (run + count) rest := by
  induction count generalizing run with
  | zero => rfl
  | succ count ih =>
    rw [replicate_succ, cons_append, unescapeScan, if_pos rfl, ih]
    congr 1
    omega

theorem unescapeScan_escape (run : Nat) (value : List UInt8) :
    unescapeScan run (escapeScan run value) = replicate run backslash ++ value := by
  induction value generalizing run with
  | nil =>
    have whole := unescapeScan_run run run []
    rw [append_nil] at whole
    rw [escapeScan, whole, unescapeScan, append_nil, show (run + run) / 2 = run by omega]
  | cons byte rest ih =>
    rw [escapeScan]
    by_cases quoted : byte = quote
    · rw [if_pos quoted, unescapeScan_run, unescapeScan, if_pos rfl, unescapeScan,
        if_neg (by decide), if_pos rfl, ih, show (run + run + 1) / 2 = run by omega, quoted]
      rfl
    · rw [if_neg quoted, unescapeScan]
      by_cases slash : byte = backslash
      · rw [if_pos slash, if_pos slash, ih, replicate_succ', append_assoc, slash]
        rfl
      · rw [if_neg slash, if_neg slash, if_neg quoted, ih]
        rfl

theorem escapeScan_quote (run : Nat) (quoted : quote ∈ value) :
    ∃ front back, escapeScan run value = front ++ backslash :: quote :: back ∧ quote ∉ front := by
  induction value generalizing run with
  | nil => cases quoted
  | cons byte rest ih =>
    rw [escapeScan]
    by_cases is : byte = quote
    · rw [if_pos is]
      refine ⟨_, _, rfl, fun listed => ?_⟩
      exact absurd (mem_replicate.1 listed).2 (by decide)
    · rw [if_neg is]
      obtain ⟨front, back, shape, none⟩ := ih (if byte = backslash then run + 1 else 0)
        ((mem_cons.1 quoted).resolve_left fun same => is same.symm)
      refine ⟨byte :: front, back, by rw [shape]; rfl, ?_⟩
      rw [mem_cons, not_or]
      exact ⟨fun same => is same.symm, none⟩

theorem escapeScan_plain (run : Nat) (plain : quote ∉ value) :
    ∃ count, escapeScan run value = value ++ replicate count backslash := by
  induction value generalizing run with
  | nil => exact ⟨run, rfl⟩
  | cons byte rest ih =>
    rw [mem_cons, not_or] at plain
    rw [escapeScan, if_neg fun same => plain.1 same.symm]
    obtain ⟨count, shape⟩ := ih (if byte = backslash then run + 1 else 0) plain.2
    exact ⟨count, by rw [shape]; rfl⟩

variable {byte : UInt8}

/-- The bytes that are written of a value are its own, and backslashes. -/
theorem mem_escapeScan (listed : byte ∈ escapeScan run value) : byte ∈ value ∨ byte = backslash := by
  induction value generalizing run with
  | nil => exact .inr (mem_replicate.1 listed).2
  | cons other rest ih =>
    have later : ∀ {run}, byte ∈ escapeScan run rest → byte ∈ other :: rest ∨ byte = backslash :=
      fun listed => (ih listed).imp_left (mem_cons_of_mem _)
    rw [escapeScan] at listed
    split at listed
    · rename_i quoted
      rcases mem_append.1 listed with slash | listed
      · exact .inr (mem_replicate.1 slash).2
      · rcases mem_cons.1 listed with rfl | listed
        · exact .inr rfl
        · rcases mem_cons.1 listed with rfl | listed
          · exact .inl (quoted ▸ mem_cons_self)
          · exact later listed
    · rcases mem_cons.1 listed with rfl | listed
      · exact .inl mem_cons_self
      · exact later listed

theorem mem_escapeScan_of_mem (run : Nat) (listed : byte ∈ value) : byte ∈ escapeScan run value := by
  induction value generalizing run with
  | nil => cases listed
  | cons other rest ih =>
    rw [escapeScan]
    rcases mem_cons.1 listed with rfl | listed
    · split
      · rename_i quoted
        rw [quoted]
        simp
      · exact mem_cons_self
    · split
      · exact mem_append_right _
          (mem_cons_of_mem _ (mem_cons_of_mem _ (ih 0 listed)))
      · exact mem_cons_of_mem _ (ih _ listed)

variable {buffer front value rest key : List UInt8} {place : Nat}

theorem escapeScan_head (some : value ≠ []) :
    ∃ byte rest, escapeScan 0 value = byte :: rest ∧ byte ≠ quote := by
  cases value with
  | nil => exact absurd rfl some
  | cons byte rest =>
    rw [escapeScan]
    split
    · exact ⟨backslash, _, rfl, by decide⟩
    · rename_i other
      exact ⟨byte, _, rfl, other⟩

theorem literalEscaped_escape (clear : (0 : UInt8) ∉ value)
    (shape : buffer = front ++ (escapeScan 0 value ++ [quote])) :
    slice (literalEscaped buffer front.length).1 front.length
      (literalEscaped buffer front.length).2 = value := by
  obtain ⟨escaped, ends, same⟩ := @literalScan_escape value [] clear 0 0 none
  have closing : literalEnd buffer front.length = (some (escapeScan 0 value).length, escaped) := by
    rw [literalEnd, shape, drop_left, ends, Nat.zero_add]
    rfl
  have whole : slice buffer front.length (literalLength buffer front.length) = escapeScan 0 value := by
    rw [literalLength, closing, shape]
    exact slice_front
  rw [literalEscaped, closing]
  cases escaped with
  | true =>
    rw [if_pos rfl]
    simp only [whole]
    have undone : unescape (escapeScan 0 value) = value := unescapeScan_escape 0 value
    rw [undone, slice_splice]
    rw [shape, length_append]
    exact Nat.le_add_right ..
  | false =>
    rw [if_neg Bool.false_ne_true]
    exact whole.trans (same rfl)

/-- A value that was written is read as it was. -/
theorem extractValue_escape (clear : (0 : UInt8) ∉ value)
    (shape : buffer = front ++ 0x20 :: quote :: (escapeScan 0 value ++ [quote])) :
    slice (extractValue buffer front.length).1 (extractValue buffer front.length).2.1
      (extractValue buffer front.length).2.2 = value := by
  have blank : skip isBlank buffer front.length = front.length + 1 := by
    rw [shape, skip_front, takeWhile_cons_of_pos rfl, takeWhile_cons_of_neg (by decide)]
    rfl
  -- The buffer up to the quote, and up to the text behind it.
  have signed : buffer = (front ++ [0x20]) ++ quote :: (escapeScan 0 value ++ [quote]) := by
    rw [shape, append_assoc]
    rfl
  have opened : buffer = (front ++ [0x20, quote]) ++ (escapeScan 0 value ++ [quote]) := by
    rw [shape, append_assoc]
    rfl
  have first : byteAt buffer (front.length + 1) = quote := by
    rw [signed, show front.length + 1 = (front ++ [0x20]).length by rw [length_append]; rfl]
    exact byteAt_front
  have start : front.length + 1 + 1 = (front ++ [0x20, quote]).length := by
    rw [length_append]
    rfl
  rw [extractValue]
  simp only
  rw [blank, if_pos first, start]
  generalize front ++ [0x20, quote] = start at opened
  by_cases empty : value = []
  · subst empty
    rw [if_pos (by rw [opened]; exact byteAt_front)]
    exact take_zero
  · have other : byteAt buffer start.length ≠ quote := by
      obtain ⟨byte, rest, head, different⟩ := escapeScan_head empty
      rw [opened, head, cons_append, byteAt_front]
      exact different
    rw [if_neg other]
    -- What is left of an escaped literal when its end is written.
    have written : ∀ {after : List UInt8} {length : Nat}, slice after start.length length = value →
        slice (after.set (start.length + length) 0) start.length length = value := by
      intro after length same
      rw [(keeps_set (Nat.le_refl (start.length + length))).slice (Nat.le_refl _), same]
    have clear' : (0 : UInt8) ∉ escapeScan 0 value := fun listed =>
      (mem_escapeScan listed).elim clear (by decide)
    by_cases quoted : quote ∈ value
    · -- The first quote is an escaped one.
      obtain ⟨before, back, parts, none⟩ := escapeScan_quote 0 quoted
      have finds : strchr buffer start.length quote =
          some (start.length + (before ++ [backslash]).length) := by
        have apart : buffer = start ++ ((before ++ [backslash]) ++ quote :: (back ++ [quote])) := by
          rw [opened, parts]
          simp
        rw [apart]
        refine strchr_front ?_ fun listed => clear' ?_
        · rw [mem_append, mem_singleton, not_or]
          exact ⟨none, by decide⟩
        · rw [parts]
          rcases mem_append.1 listed with listed | same
          · exact mem_append_left _ listed
          · cases mem_singleton.1 same
      have slash : byteAt buffer (start.length + (before ++ [backslash]).length - 1) = backslash := by
        have apart : buffer = (start ++ before) ++ backslash :: quote :: (back ++ [quote]) := by
          rw [opened, parts]
          simp
        rw [apart, show start.length + (before ++ [backslash]).length - 1 = (start ++ before).length by simp]
        exact byteAt_front
      rw [finds]
      simp only [slash, if_pos]
      exact written (literalEscaped_escape clear opened)
    · -- The first quote is the closing one.
      obtain ⟨count, parts⟩ := escapeScan_plain 0 quoted
      have plain : quote ∉ escapeScan 0 value := by
        rw [parts, mem_append, not_or]
        exact ⟨quoted, fun listed => absurd (mem_replicate.1 listed).2 (by decide)⟩
      have finds : strchr buffer start.length quote = some (start.length + (escapeScan 0 value).length) := by
        rw [opened]
        exact strchr_front plain clear'
      rw [finds]
      simp only
      by_cases slash : byteAt buffer (start.length + (escapeScan 0 value).length - 1) = backslash
      · rw [if_pos slash]
        exact written (literalEscaped_escape clear opened)
      · rw [if_neg slash, Nat.add_sub_cancel_left]
        refine written ?_
        have whole : slice buffer start.length (escapeScan 0 value).length = escapeScan 0 value := by
          rw [opened]
          exact slice_front
        rw [whole, parts]
        cases count with
        | zero => exact append_nil _
        | succ count =>
          refine absurd ?_ slash
          have apart : buffer = (start ++ (value ++ replicate count backslash)) ++ backslash :: [quote] := by
            rw [opened, parts, replicate_succ']
            simp
          rw [apart, parts, show start.length + (value ++ replicate (count + 1)
            backslash).length - 1 = (start ++ (value ++ replicate count backslash)).length by simp; omega]
          exact byteAt_front

theorem mem_unescapeScan {bytes : List UInt8}
    (listed : byte ∈ unescapeScan run bytes) : byte ∈ bytes ∨ byte = backslash := by
  induction bytes generalizing run with
  | nil => exact .inr (mem_replicate.1 listed).2
  | cons other rest ih =>
    have later : ∀ {run}, byte ∈ unescapeScan run rest → byte ∈ other :: rest ∨ byte = backslash :=
      fun listed => (ih listed).imp_left (mem_cons_of_mem _)
    rw [unescapeScan] at listed
    split at listed
    · exact later listed
    · split at listed
      · rename_i quoted
        rcases mem_append.1 listed with slash | listed
        · exact .inr (mem_replicate.1 slash).2
        · rcases mem_cons.1 listed with rfl | listed
          · exact .inl (quoted ▸ mem_cons_self)
          · exact later listed
      · rcases mem_append.1 listed with slash | listed
        · exact .inr (mem_replicate.1 slash).2
        · rcases mem_cons.1 listed with rfl | listed
          · exact .inl mem_cons_self
          · exact later listed

theorem mem_slice {length : Nat} (listed : byte ∈ slice buffer place length) : byte ∈ buffer :=
  mem_of_mem_drop (mem_of_mem_take listed)

theorem mem_literalEscaped (inside : place ≤ buffer.length)
    (listed : byte ∈ slice (literalEscaped buffer place).1 place (literalEscaped buffer place).2) :
    byte ∈ buffer ∨ byte = backslash := by
  rw [literalEscaped] at listed
  split at listed
  · rw [slice_splice inside] at listed
    exact (mem_unescapeScan listed).imp_left mem_slice
  · exact .inl (mem_slice listed)

/-- The bytes of a value are those of its line, and backslashes. -/
theorem mem_extractValue (inside : place ≤ buffer.length)
    (listed : byte ∈ slice (extractValue buffer place).1 (extractValue buffer place).2.1
      (extractValue buffer place).2.2) : byte ∈ buffer ∨ byte = backslash := by
  -- The end that is written is behind the value.
  have written : ∀ {after : List UInt8} {first length : Nat},
      byte ∈ slice (after.set (first + length) 0) first length → byte ∈ slice after first length := by
    intro after first length listed
    rwa [(keeps_set (Nat.le_refl (first + length))).slice (Nat.le_refl _)] at listed
  have start : skip isBlank buffer place ≤ buffer.length := skip_le inside
  rw [extractValue] at listed
  simp only at listed
  generalize skip isBlank buffer place = first at listed start
  by_cases literal : byteAt buffer first = quote
  · have within : first + 1 ≤ buffer.length := lt_of_byteAt (by rw [literal]; decide)
    rw [if_pos literal] at listed
    by_cases empty : byteAt buffer (first + 1) = quote
    · rw [if_pos empty] at listed
      exact .inl (mem_slice listed)
    · rw [if_neg empty] at listed
      cases finds : strchr buffer (first + 1) quote with
      | none =>
        rw [finds] at listed
        exact .inl (mem_slice (written listed))
      | some found =>
        rw [finds] at listed
        simp only at listed
        by_cases escaped : byteAt buffer (found - 1) = backslash
        · rw [if_pos escaped] at listed
          exact mem_literalEscaped within (written listed)
        · rw [if_neg escaped] at listed
          exact .inl (mem_slice (written listed))
  · rw [if_neg literal] at listed
    by_cases none : byteAt buffer first = 0
    · rw [if_pos none] at listed
      exact .inl (mem_slice listed)
    · rw [if_neg none] at listed
      exact .inl (mem_slice (written listed))

open Nat

variable {line cut key value front rest : List UInt8} {offset run : Nat} {first : Option Nat}

/-- The value that is read at a place of a line. -/
def valueRead (buffer : List UInt8) (place : Nat) : List UInt8 :=
  slice (extractValue buffer place).1 (extractValue buffer place).2.1 (extractValue buffer place).2.2

/-- The key of a line without its comment, if it has one. -/
def keyRead (cut : List UInt8) : List UInt8 := (cut.drop (skip isBlank cut 0)).takeWhile isGraph

/-- Where a line without its comment has a sign behind its key. -/
def signRead (cut : List UInt8) : Nat := skip isBlank cut (skip isBlank cut 0 + (keyRead cut).length)

/-- What a line says that is no comment. -/
theorem lineSays_cut (strips : stripComment line 0 = (cut, none)) : lineSays line =
      if keyRead cut = [] then .nothing
      else if byteAt cut (signRead cut) = equals then
        .entry (keyRead cut) (valueRead cut (signRead cut + 1))
      else .nothing := by
  have length : skip isGraph cut (skip isBlank cut 0) - skip isBlank cut 0 = (keyRead cut).length := by
    rw [skip, Nat.add_sub_cancel_left, keyRead]
  have stop : skip isGraph cut (skip isBlank cut 0) = skip isBlank cut 0 + (keyRead cut).length := rfl
  have key : slice cut (skip isBlank cut 0) (keyRead cut).length = keyRead cut := by
    rw [← length, slice_skip]
    rfl
  rw [lineSays, scanLine, strips]
  simp only
  rw [length]
  by_cases empty : keyRead cut = []
  · rw [if_pos (length_eq_zero_iff.2 empty), if_pos empty]
    rfl
  · rw [if_neg fun none => empty (length_eq_zero_iff.1 none), if_neg empty, stop]
    by_cases signed : byteAt cut (signRead cut) = equals
    · rw [if_pos signed]
      have within : signRead cut + 1 ≤ cut.length := lt_of_byteAt (by rw [signed]; decide)
      have keeps := (extractValue_keeps within).1
      have before : skip isBlank cut 0 + (keyRead cut).length ≤ signRead cut + 1 := le_succ_of_le le_skip
      have same : byteAt cut (skip isBlank cut (skip isBlank cut 0 + (keyRead cut).length)) = equals := signed
      rw [if_pos same]
      simp only [Found.read, Text.make_copied]
      congr 1
      exact (keeps.slice before).trans key
    · have other : byteAt cut (skip isBlank cut (skip isBlank cut 0 + (keyRead cut).length)) ≠
          equals := signed
      rw [if_neg other, if_neg signed]
      rfl

theorem lineSays_entry (says' : lineSays line = .entry key value) :
    ∃ cut, stripComment line 0 = (cut, none) ∧ keyRead cut = key ∧ key ≠ [] ∧
      valueRead cut (signRead cut + 1) = value ∧ signRead cut + 1 ≤ cut.length := by
  cases strips : stripComment line 0 with
  | mk cut comment =>
    cases comment with
    | some comment =>
      -- A comment is a directive at most.
      rw [lineSays, scanLine, strips] at says'
      simp only at says'
      split at says'
      · cases path : (scanPath cut (comment + includeWord.length)).2 <;>
          rw [path] at says' <;> cases says'
      · split at says'
        · cases path : (scanPath cut (comment + referenceWord.length)).2 <;>
            rw [path] at says' <;> cases says'
        · cases says'
    | none =>
      rw [lineSays_cut strips] at says'
      split at says'
      · cases says'
      · rename_i some
        split at says'
        · rename_i signed
          cases says'
          exact ⟨cut, rfl, rfl, some, rfl, lt_of_byteAt (by rw [signed]; decide)⟩
        · cases says'

/-- A quote closes a literal within some bytes, after a run of backslashes. -/
def closes (run : Nat) : List UInt8 → Bool
  | [] => false
  | byte :: rest =>
    if byte = quote then run % 2 = 0 || closes 0 rest
    else closes (if byte = backslash then run + 1 else 0) rest

/-- A key that lines can have: a comment sign in it is inside a literal that begins in it. -/
structure KeyFits (key : List UInt8) : Prop where
  some : key ≠ []
  graph : ∀ byte ∈ key, isGraph byte = true
  signs : ∀ before after, key = before ++ hash :: after → hash ∉ before →
    ∃ front within, before = front ++ quote :: within ∧ quote ∉ front ∧ closes 0 within = false

theorem literalScan_open (stays : closes run front = false) (clear : (0 : UInt8) ∉ front)
    (offset : Nat) (first : Option Nat) :
    ∃ run' first', ∀ rest, literalScan offset run first (front ++ rest) =
      literalScan (offset + front.length) run' first' rest := by
  induction front generalizing offset run first with
  | nil => exact ⟨run, first, fun _ => rfl⟩
  | cons byte front ih =>
    rw [mem_cons, not_or] at clear
    rw [closes] at stays
    by_cases quoted : byte = quote
    · rw [if_pos quoted, Bool.or_eq_false_iff, decide_eq_false_iff_not] at stays
      obtain ⟨run', first', goes⟩ := ih stays.2 clear.2 (offset + 1) (first.or (some offset))
      refine ⟨run', first', fun rest => ?_⟩
      rw [cons_append, literalScan, if_neg fun same => clear.1 same.symm, if_pos quoted,
        if_neg stays.1, goes, length_cons]
      congr 1
      omega
    · rw [if_neg quoted] at stays
      obtain ⟨run', first', goes⟩ := ih stays clear.2 (offset + 1) first
      refine ⟨run', first', fun rest => ?_⟩
      rw [cons_append, literalScan, if_neg fun same => clear.1 same.symm, if_neg quoted, goes, length_cons]
      congr 1
      omega

theorem literalScan_closed (ends : closes run front = true) (clear : (0 : UInt8) ∉ front)
    (offset : Nat) (first : Option Nat) (rest : List UInt8) :
    ∃ found, (literalScan offset run first (front ++ rest)).1 = some found ∧
      found < offset + front.length := by
  induction front generalizing offset run first with
  | nil => cases ends
  | cons byte front ih =>
    rw [mem_cons, not_or] at clear
    rw [closes] at ends
    rw [cons_append, literalScan, if_neg fun same => clear.1 same.symm, length_cons]
    by_cases quoted : byte = quote
    · rw [if_pos quoted, Bool.or_eq_true, decide_eq_true_eq] at ends
      rw [if_pos quoted]
      by_cases even : run % 2 = 0
      · rw [if_pos even]
        exact ⟨offset, rfl, by omega⟩
      · rw [if_neg even]
        obtain ⟨found, is, less⟩ := ih (ends.resolve_left even) clear.2 (offset + 1) (first.or (some offset))
        exact ⟨found, is, by omega⟩
    · rw [if_neg quoted] at ends ⊢
      obtain ⟨found, is, less⟩ := ih ends clear.2 (offset + 1) first
      exact ⟨found, is, by omega⟩

theorem literalScan_space (clear : (0 : UInt8) ∉ front) (offset run : Nat) (first : Option Nat)
    (rest : List UInt8) :
    ∃ found, (literalScan offset run first (front ++ 0x20 :: quote :: rest)).1 = some found ∧
      offset ≤ found ∧ found ≤ offset + front.length + 1 := by
  induction front generalizing offset run first with
  | nil =>
    rw [nil_append, literalScan, if_neg (by decide), if_neg (by decide), if_neg (by decide),
      literalScan, if_neg (by decide), if_pos rfl, if_pos rfl]
    exact ⟨offset + 1, rfl, by omega, by omega⟩
  | cons byte front ih =>
    rw [mem_cons, not_or] at clear
    rw [cons_append, literalScan, if_neg fun same => clear.1 same.symm, length_cons]
    split
    · split
      · exact ⟨offset, rfl, Nat.le_refl _, by omega⟩
      · obtain ⟨found, is, least, most⟩ := ih clear.2 (offset + 1) 0 (first.or (some offset))
        exact ⟨found, is, by omega, by omega⟩
    · obtain ⟨found, is, least, most⟩ := ih clear.2 (offset + 1)
        (if byte = backslash then run + 1 else 0) first
      exact ⟨found, is, by omega, by omega⟩

theorem isGraph_not {byte : UInt8} (graph : isGraph byte = true) :
    isBlank byte = false ∧ byte ≠ 0 ∧ byte ≠ newline := by
  refine ⟨Bool.eq_false_iff.2 fun blank => ?_, fun zero => ?_, fun ends => ?_⟩
  · simp only [isBlank, Bool.or_eq_true, decide_eq_true_eq] at blank
    rcases blank with ((rfl | rfl) | rfl) | rfl <;> cases graph
  · cases zero
    cases graph
  · cases ends
    cases graph

/-- A line that is written of a key and a value. -/
def lineWritten (key value : List UInt8) : List UInt8 :=
  key ++ 0x20 :: equals :: 0x20 :: quote :: (escapeScan 0 value ++ [quote])

variable (fits : KeyFits key)
include fits

theorem KeyFits.nonzero : (0 : UInt8) ∉ key := fun listed => (isGraph_not (fits.graph 0 listed)).2.1 rfl

theorem skip_key : skip isBlank (key ++ rest) 0 = 0 := by
  obtain ⟨first, more, is⟩ := exists_cons_of_ne_nil fits.some
  have graph := fits.graph first (is ▸ mem_cons_self)
  rw [skip, drop_zero, is, cons_append, takeWhile_cons_of_neg]
  · rfl
  · rw [(isGraph_not graph).1]
    exact Bool.false_ne_true

theorem keyRead_sign (shape : cut = key ++ 0x20 :: equals :: 0x20 :: rest) :
    keyRead cut = key ∧ signRead cut = key.length + 1 ∧ byteAt cut (signRead cut) = equals := by
  have start : skip isBlank cut 0 = 0 := shape ▸ skip_key fits
  have whole : keyRead cut = key := by
    rw [keyRead, start, drop_zero, shape, takeWhile_append_of_pos fits.graph,
      takeWhile_cons_of_neg (by decide), append_nil]
  have sign : signRead cut = key.length + 1 := by
    rw [signRead, whole, start, zero_add, shape, skip_front,
      takeWhile_cons_of_pos (by decide), takeWhile_cons_of_neg (by decide)]
    rfl
  refine ⟨whole, sign, ?_⟩
  rw [sign, shape, show key.length + 1 = (key ++ [0x20]).length by rw [length_append]; rfl,
    show key ++ 0x20 :: equals :: 0x20 :: rest = (key ++ [0x20]) ++ equals :: 0x20 :: rest by simp]
  exact byteAt_front

theorem lineSays_kept (clear : (0 : UInt8) ∉ value)
    (strips : stripComment (lineWritten key value) 0 = (lineWritten key value, none)) :
    lineSays (lineWritten key value) = .entry key value := by
  obtain ⟨whole, sign, signed⟩ := @keyRead_sign (lineWritten key value) key _ fits rfl
  rw [lineSays_cut strips, whole, if_neg fits.some, if_pos signed, sign]
  congr 1
  have shape : lineWritten key value =
      (key ++ [0x20, equals]) ++ 0x20 :: quote :: (escapeScan 0 value ++ [quote]) := by
    rw [lineWritten]
    simp
  have place : key.length + 1 + 1 = (key ++ [0x20, equals]).length := by
    rw [length_append]
    rfl
  rw [valueRead, place]
  exact extractValue_escape clear shape

omit fits

theorem stripComment_none (absent : hash ∉ line) : stripComment line 0 = (line, none) := by
  have none : strchr line 0 hash = none := by
    cases finds : strchr line 0 hash with
    | none => rfl
    | some found => exact absurd (mem_of_strchr (by decide) finds) absent
  rw [stripComment, none]

theorem stripComment_hash (absent : hash ∉ front) (clear : (0 : UInt8) ∉ front)
    (some : front ≠ []) (shape : line = front ++ hash :: rest) :
    stripComment line 0 = (if insideLiteral line 0 front.length then line else front ++ 0 :: rest, none) := by
  have finds : strchr line 0 hash = Option.some front.length := by
    have finds := @strchr_front [] front rest hash absent clear
    rw [nil_append, length_nil, zero_add] at finds
    rw [shape]
    exact finds
  have long : front.length ≠ 0 := fun none => some (length_eq_zero_iff.1 none)
  have cut : line.set front.length 0 = front ++ 0 :: rest := by
    rw [shape, set_append_right _ _ (Nat.le_refl _), Nat.sub_self]
    rfl
  rw [stripComment, finds]
  simp only
  rw [if_neg long, cut]

theorem insideLiteral_quote {before : List UInt8} {comment : Nat} (absent : quote ∉ before)
    (clear : (0 : UInt8) ∉ before) (shape : line = before ++ quote :: rest) :
    insideLiteral line 0 comment = (decide (before.length < comment) &&
      match (literalScan 0 0 none rest).1 with
      | none => false
      | some offset => decide (comment < before.length + 1 + offset)) := by
  have finds : strchr line 0 quote = some before.length := by
    have finds := @strchr_front [] before rest quote absent clear
    rw [nil_append, length_nil, zero_add] at finds
    rw [shape]
    exact finds
  have behind : literalEnd line (before.length + 1) = literalScan 0 0 none rest := by
    rw [literalEnd, shape, show before ++ quote :: rest = (before ++ [quote]) ++ rest by simp,
      show before.length + 1 = (before ++ [quote]).length by rw [length_append]; rfl,
      drop_left]
  rw [insideLiteral, finds]
  show (decide (before.length < comment) && match (literalEnd line (before.length + 1)).1 with
    | none => false
    | some offset => decide (comment < before.length + 1 + offset)) = _
  rw [behind]

/-- A comment sign in a value stands behind a quote of the key, which is closed before it. -/
def Cut (key value : List UInt8) : Prop := quote ∈ key ∧ hash ∉ key ∧ hash ∈ value

theorem hash_lineWritten (listed : hash ∈ lineWritten key value) : hash ∈ key ∨ hash ∈ value := by
  rw [lineWritten, mem_append] at listed
  refine listed.imp_right fun listed => ?_
  simp only [mem_cons, mem_append, not_mem_nil, or_false] at listed
  rcases listed with same | same | same | same | listed | same
  · cases same
  · cases same
  · cases same
  · cases same
  · exact (mem_escapeScan listed).resolve_right (by decide)
  · cases same

include fits

/-- No comment is taken off a line that is written, unless a sign is cut off. -/
theorem stripComment_written (clear : (0 : UInt8) ∉ value) (whole : ¬Cut key value) :
    stripComment (lineWritten key value) 0 = (lineWritten key value, none) := by
  by_cases listed : hash ∈ lineWritten key value
  · by_cases keyed : hash ∈ key
    · -- The sign is inside a literal that begins in the key.
      obtain ⟨before, after, shape, absent⟩ := eq_append_cons_of_mem keyed
      obtain ⟨front, within, parts, unquoted, stays⟩ := fits.signs before after shape absent
      have clearKey := fits.nonzero
      rw [shape, mem_append, not_or] at clearKey
      have clearBefore := clearKey.1
      rw [parts, mem_append, mem_cons, not_or, not_or] at clearBefore
      have clearAfter : (0 : UInt8) ∉ after ++ [0x20, equals] := by
        rw [mem_append, not_or]
        exact ⟨fun listed => clearKey.2 (mem_cons_of_mem _ listed), by decide⟩
      have line : lineWritten key value = before ++ hash :: (after ++
          0x20 :: equals :: 0x20 :: quote :: (escapeScan 0 value ++ [quote])) := by
        rw [lineWritten, shape]
        simp
      have opened : lineWritten key value = front ++ quote :: (within ++ hash ::
          ((after ++ [0x20, equals]) ++ 0x20 :: quote :: (escapeScan 0 value ++ [quote]))) := by
        rw [line, parts]
        simp
      obtain ⟨run', first', goes⟩ := literalScan_open stays clearBefore.2.2 0 none
      obtain ⟨found, ends, least, -⟩ := literalScan_space clearAfter (0 + within.length + 1) 0 first'
        (escapeScan 0 value ++ [quote])
      have some : before ≠ [] := by
        rw [parts]
        exact append_ne_nil_of_right_ne_nil _ (cons_ne_nil _ _)
      have inside : insideLiteral (lineWritten key value) 0 before.length = true := by
        rw [insideLiteral_quote unquoted clearBefore.1 opened, goes, literalScan,
          if_neg (by decide), if_neg (by decide), if_neg (by decide), ends, parts,
          length_append, length_cons]
        simp only [Bool.and_eq_true, decide_eq_true_eq]
        omega
      rw [stripComment_hash absent clearKey.1 some line, if_pos inside]
    · -- The sign is inside the literal of the value.
      have valued := (hash_lineWritten listed).resolve_left keyed
      have unquoted : quote ∉ key := fun quoted => whole ⟨quoted, keyed, valued⟩
      obtain ⟨before, after, parts, absent⟩ := eq_append_cons_of_mem (mem_escapeScan_of_mem 0 valued)
      obtain ⟨escaped, ends, -⟩ := @literalScan_escape value [] clear 0 0 none
      have clearBefore : (0 : UInt8) ∉ before := fun zero => by
        have listed : (0 : UInt8) ∈ escapeScan 0 value := parts ▸ mem_append_left _ zero
        exact (mem_escapeScan listed).elim clear (by decide)
      have line : lineWritten key value = (key ++ [0x20, equals, 0x20, quote] ++ before) ++
          hash :: (after ++ [quote]) := by
        rw [lineWritten, parts]
        simp
      have opened : lineWritten key value = (key ++ [0x20, equals, 0x20]) ++
          quote :: (escapeScan 0 value ++ [quote]) := by
        rw [lineWritten]
        simp
      have absent' : hash ∉ key ++ [0x20, equals, 0x20, quote] ++ before := by
        rw [mem_append, mem_append, not_or, not_or]
        exact ⟨⟨keyed, by decide⟩, absent⟩
      have clear' : (0 : UInt8) ∉ key ++ [0x20, equals, 0x20, quote] ++ before := by
        rw [mem_append, mem_append, not_or, not_or]
        exact ⟨⟨fits.nonzero, by decide⟩, clearBefore⟩
      have unquoted' : quote ∉ key ++ [0x20, equals, 0x20] := by
        rw [mem_append, not_or]
        exact ⟨unquoted, by decide⟩
      have clearKey : (0 : UInt8) ∉ key ++ [0x20, equals, 0x20] := by
        rw [mem_append, not_or]
        exact ⟨fits.nonzero, by decide⟩
      have some : key ++ [0x20, equals, 0x20, quote] ++ before ≠ [] := by
        rw [append_assoc]
        exact append_ne_nil_of_left_ne_nil fits.some _
      have inside : insideLiteral (lineWritten key value) 0
          (key ++ [0x20, equals, 0x20, quote] ++ before).length = true := by
        rw [insideLiteral_quote unquoted' clearKey opened, ends, parts]
        simp only [Bool.and_eq_true, decide_eq_true_eq, length_append, length_cons, length_nil]
        omega
      rw [stripComment_hash absent' clear' some line, if_pos inside]
  · exact stripComment_none listed

theorem lineSays_written (clear : (0 : UInt8) ∉ value)
    (whole : ¬Cut key value) : lineSays (lineWritten key value) = .entry key value :=
  lineSays_kept fits clear (stripComment_written fits clear whole)

/-- A value whose comment sign is cut off is read without one. -/
theorem lineSays_lost (clear : (0 : UInt8) ∉ value) (lost : Cut key value) :
    ∃ other, lineSays (lineWritten key value) = .entry key other ∧ hash ∉ other := by
  obtain ⟨quoted, keyed, valued⟩ := lost
  obtain ⟨front, back, shape, unquoted⟩ := eq_append_cons_of_mem quoted
  obtain ⟨before, after, parts, absent⟩ := eq_append_cons_of_mem (mem_escapeScan_of_mem 0 valued)
  have clearKey := fits.nonzero
  rw [shape, mem_append, mem_cons, not_or, not_or] at clearKey
  have clearBefore : (0 : UInt8) ∉ before := fun zero => by
    have listed : (0 : UInt8) ∈ escapeScan 0 value := parts ▸ mem_append_left _ zero
    exact (mem_escapeScan listed).elim clear (by decide)
  have clearBack : (0 : UInt8) ∉ back ++ [0x20, equals] := by
    rw [mem_append, not_or]
    exact ⟨clearKey.2.2, by decide⟩
  -- The line up to the sign.
  obtain ⟨kept, is⟩ : ∃ kept, kept = key ++ [0x20, equals, 0x20, quote] ++ before := ⟨_, rfl⟩
  have line : lineWritten key value = kept ++ hash :: (after ++ [quote]) := by
    rw [lineWritten, parts, is]
    simp
  have opened : lineWritten key value = front ++ quote :: ((back ++ [0x20, equals]) ++
      0x20 :: quote :: (escapeScan 0 value ++ [quote])) := by
    rw [lineWritten, shape]
    simp
  have absent' : hash ∉ kept := by
    rw [is, mem_append, mem_append, not_or, not_or]
    exact ⟨⟨keyed, by decide⟩, absent⟩
  have clear' : (0 : UInt8) ∉ kept := by
    rw [is, mem_append, mem_append, not_or, not_or]
    exact ⟨⟨fits.nonzero, by decide⟩, clearBefore⟩
  have some : kept ≠ [] := by
    rw [is, append_assoc]
    exact append_ne_nil_of_left_ne_nil fits.some _
  obtain ⟨found, ends, -, most⟩ := literalScan_space clearBack 0 0 none (escapeScan 0 value ++ [quote])
  have outside : insideLiteral (lineWritten key value) 0 kept.length = false := by
    rw [insideLiteral_quote unquoted clearKey.1 opened, ends, is, shape]
    simp only [Bool.and_eq_false_iff, decide_eq_false_iff_not, length_append, length_cons,
      length_nil] at most ⊢
    omega
  have strips := stripComment_hash absent' clear' some line
  rw [outside, if_neg Bool.false_ne_true] at strips
  have begins : kept ++ 0 :: (after ++ [quote]) =
      key ++ 0x20 :: equals :: 0x20 :: (quote :: before ++ 0 :: (after ++ [quote])) := by
    rw [is]
    simp
  obtain ⟨whole, sign, signed⟩ := keyRead_sign fits begins
  rw [lineSays_cut strips, whole, if_neg fits.some, if_pos signed, sign]
  refine ⟨_, rfl, fun listed => ?_⟩
  -- The value is read before the sign alone.
  have inside : key.length + 1 + 1 ≤ kept.length := by
    rw [is]
    simp only [length_append, length_cons, length_nil]
    omega
  have apart := @extractValue_inside [] kept (0 :: (after ++ [quote])) (key.length + 1 + 1) rfl inside
  obtain ⟨keeps, -, bound, -, -⟩ := extractValue_keeps inside
  rw [nil_append, length_nil, zero_add, nil_append] at apart
  rw [valueRead, apart] at listed
  have part := @slice_inside [] (extractValue kept (key.length + 1 + 1)).1
    (0 :: (after ++ [quote])) _ _ (by rw [keeps.length]; exact bound)
  rw [nil_append, length_nil] at part
  simp only at listed
  rw [part] at listed
  exact (mem_extractValue inside listed).elim absent' (by decide)

omit fits

theorem stripComment_cut (clear : (0 : UInt8) ∉ line) (strips : stripComment line 0 = (cut, none)) :
    cut = line ∧ hash ∉ line ∨ ∃ before after, line = before ++ hash :: after ∧ hash ∉ before ∧
        (cut = before ++ 0 :: after ∨ cut = line ∧ insideLiteral line 0 before.length = true) := by
  by_cases listed : hash ∈ line
  · obtain ⟨before, after, shape, absent⟩ := eq_append_cons_of_mem listed
    refine .inr ⟨before, after, shape, absent, ?_⟩
    have clear' : (0 : UInt8) ∉ before := fun zero =>
      clear (shape ▸ mem_append_left _ zero)
    cases before with
    | nil =>
      -- The whole line is a comment.
      have finds : strchr line 0 hash = some 0 := by
        have finds := @strchr_front [] [] after hash nofun nofun
        rw [shape]
        exact finds
      rw [stripComment, finds] at strips
      cases strips
    | cons first before =>
      rw [stripComment_hash absent clear' (cons_ne_nil _ _) shape] at strips
      have same := congrArg Prod.fst strips
      simp only at same
      split at same
      · rename_i inside
        exact .inr ⟨same.symm, inside⟩
      · exact .inl same.symm
  · rw [stripComment_none listed] at strips
    exact .inl ⟨(congrArg Prod.fst strips).symm, listed⟩

theorem keyRead_parts (cut : List UInt8) : ∃ blanks rest, cut = blanks ++ keyRead cut ++ rest ∧
    ∀ byte ∈ blanks, isBlank byte = true := by
  refine ⟨cut.takeWhile isBlank, (cut.drop (skip isBlank cut 0)).dropWhile isGraph, ?_, ?_⟩
  · have whole : cut.takeWhile isBlank = cut.take (skip isBlank cut 0) := by
      rw [skip, drop_zero, zero_add]
      exact prefix_iff_eq_take.1 (List.takeWhile_prefix _)
    rw [keyRead, append_assoc, takeWhile_append_dropWhile, whole, take_append_drop]
  · intro byte listed
    exact all_eq_true.1 all_takeWhile byte listed

theorem keyRead_fits (clear : (0 : UInt8) ∉ line) (strips : stripComment line 0 = (cut, none))
    (some : keyRead cut ≠ []) : KeyFits (keyRead cut) where
  some := some
  graph := fun byte listed => all_eq_true.1 all_takeWhile byte listed
  signs := by
    intro before after shape absent
    obtain ⟨blanks, rest, parts, blank⟩ := keyRead_parts cut
    rw [shape] at parts
    have unsigned : hash ∉ blanks := fun listed => absurd (blank _ listed) (by decide)
    have unquoted : quote ∉ blanks := fun listed => absurd (blank _ listed) (by decide)
    rcases stripComment_cut clear strips with ⟨same, none⟩ |
      ⟨front, back, line', absent', kept | ⟨same, inside⟩⟩
    · -- No sign is in the line.
      refine absurd ?_ none
      rw [← same, parts]
      simp
    · -- The sign is cut off, and the key is before it.
      have clearFront : (0 : UInt8) ∉ front := fun zero =>
        clear (line' ▸ mem_append_left _ zero)
      have clearKey : (0 : UInt8) ∉ blanks ++ (before ++ hash :: after) := by
        rw [← shape, mem_append, not_or]
        refine ⟨fun zero => absurd (blank _ zero) (by decide), fun zero => ?_⟩
        exact absurd (all_eq_true.1 all_takeWhile 0 zero) (by decide)
      have string := congrArg (takeWhile fun byte => decide (byte ≠ 0)) (kept.symm.trans parts)
      rw [takeWhile_nonzero clearFront, takeWhile_nonzero clearKey,
        takeWhile_cons_of_neg (by decide), append_nil] at string
      refine absurd ?_ absent'
      rw [string]
      simp
    · -- The sign is inside a literal, which begins in the key.
      have apart : line = (blanks ++ before) ++ hash :: (after ++ rest) := by
        rw [← same, parts]
        simp
      have unsigned' : hash ∉ blanks ++ before := by
        rw [mem_append, not_or]
        exact ⟨unsigned, absent⟩
      have clear' : (0 : UInt8) ∉ blanks ++ before := fun zero =>
        clear (apart ▸ mem_append_left _ zero)
      obtain rfl : front = blanks ++ before := by
        rw [← @takeWhile_absent front back hash absent', ← line', apart, takeWhile_absent unsigned']
      by_cases quoted : quote ∈ before
      · obtain ⟨front, within, split, none⟩ := eq_append_cons_of_mem quoted
        refine ⟨front, within, split, none, Bool.eq_false_iff.2 fun ends => ?_⟩
        have unquoted' : quote ∉ blanks ++ front := by
          rw [mem_append, not_or]
          exact ⟨unquoted, none⟩
        have clearFront : (0 : UInt8) ∉ blanks ++ front := fun zero => clear' <| by
          rw [split, ← append_assoc]
          exact mem_append_left _ zero
        have clearWithin : (0 : UInt8) ∉ within := fun zero => clear' <| by
          rw [split]
          simp [zero]
        have opened : line = (blanks ++ front) ++ quote :: (within ++ hash :: (after ++ rest)) := by
          rw [apart, split]
          simp
        obtain ⟨found, is, less⟩ := literalScan_closed ends clearWithin 0 Option.none
          (hash :: (after ++ rest))
        rw [insideLiteral_quote unquoted' clearFront opened, is, split] at inside
        simp only [Bool.and_eq_true, decide_eq_true_eq, length_append, length_cons] at inside
        omega
      · -- No quote is before the sign.
        rw [insideLiteral] at inside
        cases finds : strchr line 0 quote with
        | none =>
          rw [finds] at inside
          cases inside
        | some start =>
          rw [finds] at inside
          simp only [Bool.and_eq_true, decide_eq_true_eq] at inside
          have is := strchr_some finds
          rw [skip, drop_zero, apart, takeWhile_append_of_pos, length_append] at is
          · omega
          · intro byte listed
            rw [Bool.and_eq_true, decide_eq_true_eq, decide_eq_true_eq]
            refine ⟨fun same => ?_, fun same => clear' (same ▸ listed)⟩
            rcases mem_append.1 (same ▸ listed) with listed | listed
            · exact unquoted listed
            · exact quoted listed

/-- What an entry of a text has: a key that fits, and a value without a zero byte or an end of a
line. -/
theorem lineSays_fits (clear : (0 : UInt8) ∉ line) (whole : newline ∉ line)
    (entry : lineSays line = .entry key value) :
    KeyFits key ∧ (0 : UInt8) ∉ value ∧ newline ∉ value := by
  obtain ⟨cut, strips, rfl, some, rfl, inside⟩ := lineSays_entry entry
  refine ⟨keyRead_fits clear strips some, ?_, fun listed => ?_⟩
  · obtain ⟨-, -, -, nonzero, -⟩ := extractValue_keeps inside
    exact fun zero => nonzero 0 zero rfl
  · have own := (mem_extractValue inside listed).resolve_right (by decide)
    refine whole ?_
    rcases stripComment_cut clear strips with ⟨same, -⟩ | ⟨before, after, shape, -, cut' | ⟨same, -⟩⟩
    · exact same ▸ own
    · rw [cut', mem_append, mem_cons] at own
      rw [shape]
      rcases own with own | own | own
      · exact mem_append_left _ own
      · cases own
      · exact mem_append_right _ (mem_cons_of_mem _ own)
    · exact same ▸ own

end Libretro.ConfigFile
