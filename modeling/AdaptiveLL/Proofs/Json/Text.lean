import AdaptiveLL.Json.Reader
import Mathlib.Data.List.Basic
/-!
Reading a JSON text that was written. The laid out form of a value is read back as the value,
but for what is nested too deep: each list and each object takes one of the levels that are left,
and without any it is read as an unreadable value (`parse?_writePretty`).
-/
namespace AdaptiveLL.Json

open Value

/-! ### Numbers -/

theorem digitsValue_toDigits (n : Nat) : digitsValue (Nat.toDigits 10 n) = n := by
  have same : digitsValue (Nat.toDigits 10 n) = Nat.ofDigitChars 10 (Nat.toDigits 10 n) 0 := by
    simp [digitsValue, Nat.ofDigitChars, Nat.mul_comm]
  rw [same, Nat.ofDigitChars_toDigits (by omega) (by omega)]

theorem isDigit_of_mem_toDigits {n : Nat} {c : Char} (mem : c ∈ Nat.toDigits 10 n) :
    c.isDigit = true :=
  Nat.isDigit_of_mem_toDigits (by omega) (by omega) mem

/-- The digits of a number begin with a zero only if there is no other one. -/
theorem toDigits_eq_cons (n : Nat) :
    ∃ d ds, Nat.toDigits 10 n = d :: ds ∧ (d = '0' → ds = []) := by
  induction n using Nat.strongRecOn with
  | ind n ih =>
      rw [Nat.toDigits_eq_if (by omega)]
      split
      case isTrue => exact ⟨n.digitChar, [], rfl, fun _ => rfl⟩
      case isFalse large =>
          obtain ⟨d, ds, digits, lone⟩ := ih (n / 10) (by omega)
          refine ⟨d, ds ++ [(n % 10).digitChar], by rw [digits]; rfl, fun zero => ?_⟩
          have value := digitsValue_toDigits (n / 10)
          rw [digits, lone zero, zero] at value
          simp only [digitsValue, List.foldl_cons, List.foldl_nil] at value
          have : '0'.toNat = 48 := rfl
          omega

/-- Whether a number ends in front of these characters. -/
def EndsNumber (rest : List Char) : Prop :=
  ∀ c ∈ rest.head?, c.isDigit = false ∧ c ≠ '.' ∧ c ≠ 'e' ∧ c ≠ 'E'

theorem digits_append {ds rest : List Char} (all : ∀ c ∈ ds, c.isDigit = true)
    (ends : EndsNumber rest) : digits (ds ++ rest) = (ds, rest) := by
  have stop : rest.takeWhile Char.isDigit = [] ∧ rest.dropWhile Char.isDigit = rest := by
    cases rest with
    | nil => exact ⟨rfl, rfl⟩
    | cons c rest => simp [(ends c rfl).1]
  simp [digits, List.takeWhile_append_of_pos all, List.dropWhile_append_of_pos all, stop]

theorem whole_toDigits (n : Nat) {rest : List Char} (ends : EndsNumber rest) :
    whole (Nat.toDigits 10 n ++ rest) = some (Nat.toDigits 10 n, rest) := by
  obtain ⟨d, ds, eq, lone⟩ := toDigits_eq_cons n
  rw [whole, digits_append (fun _ => isDigit_of_mem_toDigits) ends, eq]
  split
  case h_1 empty => simp at empty
  case h_2 second _ _ zero =>
      obtain ⟨⟨rfl, rfl⟩, -⟩ : (d = '0' ∧ ds = second :: _) ∧ _ := by simpa using zero
      exact absurd (lone rfl) (by simp)
  case h_3 => rfl

theorem fraction_of_ends {rest : List Char} (ends : EndsNumber rest) :
    fraction rest = some ([], rest) := by
  unfold fraction
  split
  case h_1 => exact absurd rfl (ends _ rfl).2.1
  case h_2 => rfl

theorem exponent_of_ends {rest : List Char} (ends : EndsNumber rest) :
    exponent rest = some (none, rest) := by
  cases rest with
  | nil => rfl
  | cons c rest =>
      obtain ⟨-, -, notSmall, notLarge⟩ := ends c rfl
      simp [exponent, notSmall, notLarge]

/-- The digits of a number without a sign. -/
theorem number_toDigits {n : Nat} (lt : n < 18446744073709551616) {rest : List Char}
    (ends : EndsNumber rest) : number (Nat.toDigits 10 n ++ rest) = some (.int n, rest) := by
  obtain ⟨d, ds, eq, -⟩ := toDigits_eq_cons n
  have unsigned : ∀ rest', Nat.toDigits 10 n ++ rest ≠ '-' :: rest' := by
    intro rest' minus
    rw [eq] at minus
    have digit : d.isDigit = true := isDigit_of_mem_toDigits (n := n) (eq ▸ .head _)
    rw [(List.cons.inj minus).1] at digit
    cases digit
  unfold number
  split
  rename_i negative unsigned' split
  split at split
  case h_1 minus => exact absurd minus (unsigned _)
  case h_2 =>
      cases split
      simp [whole_toDigits n ends, fraction_of_ends ends, exponent_of_ends ends,
        digitsValue_toDigits, integer?, lt]

/-- The digits of a number behind its sign. -/
theorem number_negative {n : Nat} (pos : 0 < n) (le : n ≤ 9223372036854775808) {rest : List Char}
    (ends : EndsNumber rest) :
    number ('-' :: (Nat.toDigits 10 n ++ rest)) = some (.int (-n), rest) := by
  simp [number, whole_toDigits n ends, fraction_of_ends ends, exponent_of_ends ends,
    digitsValue_toDigits, integer?, pos, le]

/-! ### Texts -/

theorem hexValue?_hexDigit : ∀ n < 16, hexValue? (Text.hexDigit n) = some n := by
  decide

theorem codeUnit_fourDigits {n : Nat} (lt : n < 65536) (rest : List Char) :
    codeUnit ((fourDigits n).toList ++ rest) = some (n, rest) := by
  have digit (k : Nat) : hexValue? (Text.hexDigit (k % 16)) = some (k % 16) :=
    hexValue?_hexDigit _ (Nat.mod_lt _ (by omega))
  simp only [fourDigits, String.toList_ofList, List.map_cons, List.map_nil, List.cons_append,
    List.nil_append, codeUnit, digit, Option.bind_eq_bind, Option.bind_some, Nat.div_one]
  have : ((n / 4096 % 16 * 16 + n / 256 % 16) * 16 + n / 16 % 16) * 16 + n % 16 = n := by omega
  rw [this]

/-- A character is written as it is or behind a backslash. -/
theorem escapeChar_cases (c : Char) :
    (escapeChar c).toList = [c] ∧ c ≠ '"' ∧ c ≠ '\\' ∧ 32 ≤ c.toNat ∨
      ∃ cs, (escapeChar c).toList = '\\' :: cs ∧ ∀ rest,
        escaped (cs ++ rest) = some (some c, rest) := by
  unfold escapeChar
  by_cases quote : c = '"'
  · exact .inr ⟨['"'], by simp [quote], fun _ => by simp [quote, escaped]⟩
  by_cases backslash : c = '\\'
  · exact .inr ⟨['\\'], by simp [backslash], fun _ => by simp [backslash, escaped]⟩
  simp only [quote, backslash, if_false]
  by_cases newLine : c = '\n'
  · exact .inr ⟨['n'], by simp [newLine], fun _ => by simp [newLine, escaped]⟩
  by_cases feed : c = '\r'
  · exact .inr ⟨['r'], by simp [feed], fun _ => by simp [feed, escaped]⟩
  by_cases tab : c = '\t'
  · exact .inr ⟨['t'], by simp [tab], fun _ => by simp [tab, escaped]⟩
  simp only [newLine, feed, tab, if_false]
  by_cases back : c.toNat = 8
  · have same : Char.ofNat 8 = c := back ▸ Char.ofNat_toNat c
    exact .inr ⟨['b'], by simp [back], fun _ => by simpa [escaped] using same⟩
  by_cases page : c.toNat = 12
  · have same : Char.ofNat 12 = c := page ▸ Char.ofNat_toNat c
    exact .inr ⟨['f'], by simp [page], fun _ => by simpa [escaped] using same⟩
  by_cases control : c.toNat < 32
  · refine .inr ⟨'u' :: (fourDigits c.toNat).toList, by simp [back, page, control], fun rest => ?_⟩
    have surrogate : c.toNat < 0xD800 := by omega
    simp [escaped, codePoint, codeUnit_fourDigits (by omega : c.toNat < 65536), surrogate,
      Char.ofNat_toNat]
  · exact .inl ⟨by simp [back, page, control], quote, backslash, by omega⟩

/-- The characters of a text up to the closing quote. -/
theorem chars_escaped (cs rest : List Char) (fuel : Nat)
    (enough : (cs.flatMap (escapeChar · |>.toList) ++ '"' :: rest).length < fuel) :
    chars fuel (cs.flatMap (escapeChar · |>.toList) ++ '"' :: rest) = some (cs.map some, rest) := by
  induction cs generalizing fuel with
  | nil =>
      obtain ⟨fuel, rfl⟩ := Nat.exists_eq_succ_of_ne_zero (Nat.ne_zero_of_lt enough)
      simp [chars]
  | cons c cs ih =>
      obtain ⟨fuel, rfl⟩ := Nat.exists_eq_succ_of_ne_zero (Nat.ne_zero_of_lt enough)
      rw [List.flatMap_cons, List.append_assoc] at enough ⊢
      rcases escapeChar_cases c with ⟨plain, quote, backslash, printed⟩ | ⟨es, escape, read⟩
      · simp only [plain, List.singleton_append, List.length_cons] at enough ⊢
        have others := ih fuel (by omega)
        simp [chars, quote, backslash, Nat.not_lt.2 printed, others]
      · simp only [escape, List.cons_append, List.length_cons, List.length_append] at enough ⊢
        have others := ih fuel (by simp only [List.length_append, List.length_cons]; omega)
        simp [chars, read, others]

theorem toList_writeText (s : String) :
    (writeText s).toList = '"' :: (s.toList.flatMap (escapeChar · |>.toList) ++ ['"']) := by
  simp [writeText, String.toList_join, List.flatMap_map]

/-- Nothing is missing from a list of characters that were all read. -/
theorem mapM_some {α β : Type} {f : α → Option β} {g : α → β} {as : List α}
    (all : ∀ a ∈ as, f a = some (g a)) : as.mapM f = some (as.map g) := by
  induction as with
  | nil => rfl
  | cons a as ih =>
      have rest := ih fun a mem => all a (.tail _ mem)
      simp [List.mapM_cons, all a (.head _), rest]

theorem textOf_some (s : String) : textOf (s.toList.map some) = .text s := by
  have all : (s.toList.map some).mapM id = some s.toList := by
    simpa using mapM_some (f := some) (g := id) fun c (_ : c ∈ s.toList) => rfl
  simp [textOf, all]

/-! ### Values -/

namespace Value

mutual

/-- Whether the text of the value says what it is: its integers have 64 bits, and it holds no
other numbers and nothing that is unreadable. -/
def IsExact : Value → Prop
  | unreadable | real _ => False
  | int i => -9223372036854775808 ≤ i ∧ i < 18446744073709551616
  | list items => AreExact items
  | object members => MembersExact members
  | null | bool _ | text _ => True

def AreExact : List Value → Prop
  | [] => True
  | v :: rest => v.IsExact ∧ AreExact rest

def MembersExact : List (String × Value) → Prop
  | [] => True
  | (_, v) :: rest => v.IsExact ∧ MembersExact rest

end

mutual

/-- The lists and objects around the innermost part of the value. -/
def levels : Value → Nat
  | list items => itemsLevels items + 1
  | object members => membersLevels members + 1
  | unreadable | null | bool _ | int _ | real _ | text _ => 0

def itemsLevels : List Value → Nat
  | [] => 0
  | v :: rest => max v.levels (itemsLevels rest)

def membersLevels : List (String × Value) → Nat
  | [] => 0
  | (_, v) :: rest => max v.levels (membersLevels rest)

end

mutual

/-- What can be read of the value if lists and objects may be nested `room` levels deep. -/
def cut (room : Nat) : Value → Value
  | list items => enclosed room (list (cutItems (room - 1) items))
  | object members => enclosed room (object (cutMembers (room - 1) members))
  | v => v

def cutItems (room : Nat) : List Value → List Value
  | [] => []
  | v :: rest => v.cut room :: cutItems room rest

def cutMembers (room : Nat) : List (String × Value) → List (String × Value)
  | [] => []
  | (key, v) :: rest => (key, v.cut room) :: cutMembers room rest

end

mutual

/-- Nothing is lost of a value that is not nested too deep. -/
theorem cut_of_le {room : Nat} {v : Value} (shallow : v.levels ≤ room) : v.cut room = v := by
  cases v with
  | list items =>
      rw [levels] at shallow
      obtain ⟨room, rfl⟩ := Nat.exists_eq_succ_of_ne_zero (show room ≠ 0 by omega)
      rw [cut, Nat.succ_sub_one, cutItems_of_le (Nat.le_of_succ_le_succ shallow)]
      rfl
  | object members =>
      rw [levels] at shallow
      obtain ⟨room, rfl⟩ := Nat.exists_eq_succ_of_ne_zero (show room ≠ 0 by omega)
      rw [cut, Nat.succ_sub_one, cutMembers_of_le (Nat.le_of_succ_le_succ shallow)]
      rfl
  | unreadable | null | bool | int | real | text => rw [cut] <;> simp

theorem cutItems_of_le {room : Nat} {vs : List Value} (shallow : itemsLevels vs ≤ room) :
    cutItems room vs = vs := by
  cases vs with
  | nil => rw [cutItems]
  | cons v rest =>
      obtain ⟨first, others⟩ := Nat.max_le.1 (itemsLevels.eq_2 v rest ▸ shallow)
      rw [cutItems, cut_of_le first, cutItems_of_le others]

theorem cutMembers_of_le {room : Nat} {ms : List (String × Value)}
    (shallow : membersLevels ms ≤ room) : cutMembers room ms = ms := by
  cases ms with
  | nil => rw [cutMembers]
  | cons m rest =>
      obtain ⟨key, v⟩ := m
      obtain ⟨first, others⟩ := Nat.max_le.1 (membersLevels.eq_2 key v rest ▸ shallow)
      rw [cutMembers, cut_of_le first, cutMembers_of_le others]

end

/-- The text of the items behind the first one. -/
def itemsBehind (level : Nat) : List Value → List Char
  | [] => []
  | v :: rest =>
      ',' :: ((indent level).toList ++ ((v.writeAt level).toList ++ itemsBehind level rest))

/-- The text of a member, without the blanks in front of it. -/
def memberText (level : Nat) (key : String) (v : Value) : List Char :=
  (writeText key).toList ++ (':' :: ' ' :: (v.writeAt level).toList)

/-- The text of the members behind the first one. -/
def membersBehind (level : Nat) : List (String × Value) → List Char
  | [] => []
  | (key, v) :: rest =>
      ',' :: ((indent level).toList ++ (memberText level key v ++ membersBehind level rest))

theorem intercalate_itemsAt (level : Nat) (v : Value) (rest : List Value) :
    [','].intercalate ((itemsAt level (v :: rest)).map String.toList)
      = (indent level).toList ++ ((v.writeAt level).toList ++ itemsBehind level rest) := by
  induction rest generalizing v with
  | nil => simp [itemsAt, itemsBehind]
  | cons w rest ih => simpa [itemsAt, itemsBehind, List.intercalate_cons_cons] using ih w

theorem intercalate_membersAt (level : Nat) (key : String) (v : Value)
    (rest : List (String × Value)) :
    [','].intercalate ((membersAt level ((key, v) :: rest)).map String.toList)
      = (indent level).toList ++ (memberText level key v ++ membersBehind level rest) := by
  induction rest generalizing key v with
  | nil => simp [membersAt, membersBehind, memberText]
  | cons m rest ih =>
      simpa [membersAt, membersBehind, memberText, List.intercalate_cons_cons] using ih m.1 m.2

theorem toList_writeAt_list (level : Nat) (v : Value) (rest : List Value) :
    ((list (v :: rest)).writeAt level).toList = '[' :: ((indent (level + 1)).toList ++
      ((v.writeAt (level + 1)).toList ++ (itemsBehind (level + 1) rest ++
        ((indent level).toList ++ [']'])))) := by
  simp [writeAt, String.toList_intercalate, intercalate_itemsAt]

theorem toList_writeAt_object (level : Nat) (key : String) (v : Value)
    (rest : List (String × Value)) :
    ((object ((key, v) :: rest)).writeAt level).toList = '\x7b' :: ((indent (level + 1)).toList ++
      (memberText (level + 1) key v ++ (membersBehind (level + 1) rest ++
        ((indent level).toList ++ ['\x7d'])))) := by
  simp [writeAt, String.toList_intercalate, intercalate_membersAt]

end Value

/-! ### Reading -/

theorem length_skipBlanks_le (cs : List Char) : (skipBlanks cs).length ≤ cs.length :=
  (List.dropWhile_suffix isBlank).length_le

theorem isBlank_of_mem_indent {level : Nat} {c : Char} (mem : c ∈ (indent level).toList) :
    isBlank c = true := by
  have : c = '\n' ∨ c = ' ' := by
    simp [indent] at mem
    exact mem.imp id And.right
  rcases this with rfl | rfl <;> rfl

/-- Blanks are passed over up to something else. -/
theorem skipBlanks_append (blanks : List Char) {cs : List Char}
    (blank : ∀ c ∈ blanks, isBlank c = true)
    (stop : ∀ c ∈ cs.head?, isBlank c = false) : skipBlanks (blanks ++ cs) = cs := by
  rw [skipBlanks, List.dropWhile_append_of_pos blank]
  cases cs with
  | nil => rfl
  | cons c cs => simp [stop c rfl]

theorem value_number {cs rest : List Char} {c : Char} (front : skipBlanks cs = c :: rest)
    (first : c.isDigit = true ∨ c = '-') (fuel room : Nat) :
    value (fuel + 1) room cs = number (c :: rest) := by
  have other (d : Char) (none : d.isDigit = false ∧ d ≠ '-') : c ≠ d := by
    rintro rfl
    rcases first with digit | sign
    · cases digit.symm.trans none.1
    · exact none.2 sign
  rw [value, front]
  split
  case h_1 empty => cases empty
  case h_8 => rfl
  all_goals
    rename_i here
    exact absurd (List.cons.inj here).1 (other _ (by decide))

theorem value_list {cs rest more : List Char} {c : Char} (front : skipBlanks cs = '[' :: rest)
    (next : skipBlanks rest = c :: more) (some : c ≠ ']') (fuel room : Nat) :
    value (fuel + 1) room cs = (items fuel (room - 1) (c :: more)).map fun (vs, rest) =>
      (enclosed room (.list vs), rest) := by
  simp [value, front, next, some]

theorem value_object {cs rest more : List Char} {c : Char} (front : skipBlanks cs = '\x7b' :: rest)
    (next : skipBlanks rest = c :: more) (some : c ≠ '\x7d') (fuel room : Nat) :
    value (fuel + 1) room cs = (members fuel (room - 1) (c :: more)).map fun (ms, rest) =>
      (enclosed room (objectOf ms), rest) := by
  simp [value, front, next, some]

/-- An integer is written as its digits, behind a sign if it is negative. -/
theorem toList_toString_int (i : Int) :
    (0 ≤ i ∧ (toString i).toList = Nat.toDigits 10 i.toNat) ∨
      ∃ n, i = -((n + 1 : Nat) : Int) ∧ (toString i).toList = '-' :: Nat.toDigits 10 (n + 1) := by
  cases i with
  | ofNat n => exact .inl ⟨Int.natCast_nonneg n, by simp [Int.repr]⟩
  | negSucc n =>
      refine .inr ⟨n, rfl, ?_⟩
      change ("-" ++ (n + 1).repr).toList = _
      simp

theorem number_toString {i : Int} (exact : (Value.int i).IsExact) {rest : List Char}
    (ends : EndsNumber rest) : number ((toString i).toList ++ rest) = some (.int i, rest) := by
  rw [Value.IsExact] at exact
  rcases toList_toString_int i with ⟨positive, digits⟩ | ⟨n, rfl, digits⟩
  · rw [digits, number_toDigits (by omega) ends, Int.toNat_of_nonneg positive]
  · rw [digits]
    exact number_negative (by omega) (by omega) ends

/-- The text of an exact value begins with no blank, and with no closing bracket. -/
theorem writeAt_eq_cons {v : Value} (exact : v.IsExact) (level : Nat) :
    ∃ c cs, (v.writeAt level).toList = c :: cs ∧ isBlank c = false ∧ c ≠ ']' := by
  cases v with
  | unreadable | real => exact exact.elim
  | null => exact ⟨'n', ['u', 'l', 'l'], by simp [writeAt], rfl, by decide⟩
  | bool b =>
      cases b with
      | true => exact ⟨'t', ['r', 'u', 'e'], by simp [writeAt], rfl, by decide⟩
      | false => exact ⟨'f', ['a', 'l', 's', 'e'], by simp [writeAt], rfl, by decide⟩
  | int i =>
      rcases toList_toString_int i with ⟨-, digits⟩ | ⟨n, -, digits⟩
      · obtain ⟨d, ds, eq, -⟩ := toDigits_eq_cons i.toNat
        have digit : d.isDigit = true := isDigit_of_mem_toDigits (n := i.toNat) (eq ▸ .head _)
        refine ⟨d, ds, by rw [writeAt, digits, eq], ?_, ?_⟩
        · rw [isBlank]
          simp only [Bool.or_eq_false_iff, decide_eq_false_iff_not]
          refine ⟨⟨⟨?_, ?_⟩, ?_⟩, ?_⟩ <;> rintro rfl <;> cases digit
        · rintro rfl
          cases digit
      · exact ⟨'-', _, by rw [writeAt, digits], rfl, by decide⟩
  | text s => exact ⟨'"', _, by rw [writeAt, toList_writeText], rfl, by decide⟩
  | list items =>
      cases items with
      | nil => exact ⟨'[', [']'], by simp [writeAt], rfl, by decide⟩
      | cons v rest => exact ⟨'[', _, toList_writeAt_list level v rest, rfl, by decide⟩
  | object members =>
      cases members with
      | nil => exact ⟨'\x7b', ['\x7d'], by simp [writeAt], rfl, by decide⟩
      | cons m rest => exact ⟨'\x7b', _, toList_writeAt_object level m.1 m.2 rest, rfl, by decide⟩

theorem endsNumber_comma (rest : List Char) : EndsNumber (',' :: rest) := by
  rintro _ ⟨⟩
  decide

/-- A number ends in front of the line break before a closing bracket. -/
theorem endsNumber_indent (level : Nat) (rest : List Char) :
    EndsNumber ((indent level).toList ++ rest) := by
  have breaks : (indent level).toList = '\n' :: List.replicate (2 * level) ' ' := by
    simp [indent]
  rw [breaks]
  rintro _ ⟨⟩
  decide

theorem skipBlanks_indent (level : Nat) {c : Char} (visible : isBlank c = false) (cs : List Char) :
    skipBlanks ((indent level).toList ++ c :: cs) = c :: cs :=
  skipBlanks_append _ (fun _ => isBlank_of_mem_indent) (by rintro _ ⟨⟩; exact visible)

theorem skipBlanks_cons {c : Char} (visible : isBlank c = false) (cs : List Char) :
    skipBlanks (c :: cs) = c :: cs :=
  skipBlanks_append [] (by simp) (by rintro _ ⟨⟩; exact visible)

/-- A member, as it is read. -/
def named (m : String × Value) : Value × Value :=
  (.text m.1, m.2)

theorem objectOf_named (ms : List (String × Value)) : objectOf (ms.map named) = .object ms := by
  unfold objectOf
  extract_lets member?
  have all : (ms.map named).mapM member? = some (ms.map id) := by
    rw [List.mapM_map]
    exact mapM_some fun _ _ => rfl
  rw [all, List.map_id]
  rfl

theorem memberText_eq_cons (level : Nat) (key : String) (v : Value) :
    ∃ cs, memberText level key v = '"' :: cs :=
  ⟨_, by rw [memberText, toList_writeText, List.cons_append]⟩

/-- A member is read up to the end of its value. -/
theorem members_text {key : String} {cs rest : List Char} {fuel : Nat}
    (front : skipBlanks cs = (writeText key).toList ++ ':' :: rest) (enough : cs.length < fuel)
    (room : Nat) :
    members (fuel + 1) room cs = (value fuel room rest).bind fun (v, rest) =>
      match skipBlanks rest with
      | ',' :: rest =>
          (members fuel room rest).bind fun (ms, rest) => some (named (key, v) :: ms, rest)
      | '\x7d' :: rest => some ([named (key, v)], rest)
      | _ => none := by
  have short := length_skipBlanks_le cs
  rw [toList_writeText, List.cons_append, List.append_assoc, List.singleton_append] at front
  rw [front, List.length_cons] at short
  have name := chars_escaped key.toList (':' :: rest) fuel (by omega)
  have colon : skipBlanks (':' :: rest) = ':' :: rest := skipBlanks_cons rfl rest
  rw [members, front]
  simp only [name, colon, textOf_some, Option.bind_eq_bind, Option.bind_some]
  rfl

mutual

/-- A written value is read up to its end. -/
theorem value_written {v : Value} (exact : v.IsExact) (level room fuel : Nat)
    {cs rest : List Char} (front : skipBlanks cs = (v.writeAt level).toList ++ rest)
    (ends : EndsNumber rest) (enough : 2 * cs.length < fuel) :
    value fuel room cs = some (v.cut room, rest) := by
  obtain ⟨fuel, rfl⟩ := Nat.exists_eq_succ_of_ne_zero (Nat.ne_zero_of_lt enough)
  have short := length_skipBlanks_le cs
  cases v with
  | unreadable | real => exact exact.elim
  | null =>
      simp [writeAt] at front
      simp [value, front, word, cut]
  | bool b =>
      cases b with
      | true =>
          simp [writeAt] at front
          simp [value, front, word, cut]
      | false =>
          simp [writeAt] at front
          simp [value, front, word, cut]
  | int i =>
      rw [writeAt] at front
      have read := number_toString exact ends
      rcases toList_toString_int i with ⟨-, digits⟩ | ⟨n, -, digits⟩
      · obtain ⟨d, ds, eq, -⟩ := toDigits_eq_cons i.toNat
        have digit : d.isDigit = true := isDigit_of_mem_toDigits (n := i.toNat) (eq ▸ .head _)
        rw [digits, eq] at front read
        rw [value_number front (.inl digit), cut]
        · exact read
        all_goals simp
      · rw [digits] at front read
        rw [value_number front (.inr rfl), cut]
        · exact read
        all_goals simp
  | text s =>
      rw [writeAt, toList_writeText, List.cons_append, List.append_assoc,
        List.singleton_append] at front
      have read := chars_escaped s.toList rest fuel (by
        rw [front, List.length_cons] at short
        omega)
      simp [value, front, read, textOf_some, cut]
  | list items =>
      cases items with
      | nil =>
          simp [writeAt] at front
          have closing : skipBlanks (']' :: rest) = ']' :: rest := rfl
          simp [value, front, closing, cut, cutItems]
      | cons v vs =>
          rw [IsExact, AreExact] at exact
          obtain ⟨c, more, first, visible, other⟩ := writeAt_eq_cons exact.1 (level + 1)
          have front : skipBlanks cs = '[' :: ((indent (level + 1)).toList ++ (c :: (more ++
              (itemsBehind (level + 1) vs ++ ((indent level).toList ++ ']' :: rest))))) := by
            simpa [toList_writeAt_list, first] using front
          have inside := skipBlanks_cons visible
            (more ++ (itemsBehind (level + 1) vs ++ ((indent level).toList ++ ']' :: rest)))
          have read := items_written exact.1 exact.2 (level + 1) (room - 1) fuel
            (inside.trans (by rw [first, List.cons_append])) (skipBlanks_indent level rfl rest)
            (endsNumber_indent level _) (by
              rw [front] at short
              simp only [List.length_cons, List.length_append] at short ⊢
              omega)
          rw [value_list front (skipBlanks_indent _ visible _) other, read, cut]
          rfl
  | object members =>
      cases members with
      | nil =>
          simp [writeAt] at front
          have closing : skipBlanks ('\x7d' :: rest) = '\x7d' :: rest := rfl
          simp [value, front, closing, cut, cutMembers]
      | cons m ms =>
          obtain ⟨key, v⟩ := m
          rw [IsExact, MembersExact] at exact
          obtain ⟨more, first⟩ := memberText_eq_cons (level + 1) key v
          have front : skipBlanks cs = '\x7b' :: ((indent (level + 1)).toList ++ ('"' :: (more ++
              (membersBehind (level + 1) ms ++ ((indent level).toList ++ '\x7d' :: rest))))) := by
            simpa [toList_writeAt_object, first] using front
          have inside := skipBlanks_cons (c := '"') rfl
            (more ++ (membersBehind (level + 1) ms ++ ((indent level).toList ++ '\x7d' :: rest)))
          have read := members_written exact.1 exact.2 (level + 1) (room - 1) fuel
            (inside.trans (by rw [first, List.cons_append])) (skipBlanks_indent level rfl rest)
            (endsNumber_indent level _) (by
              rw [front] at short
              simp only [List.length_cons, List.length_append] at short ⊢
              omega)
          rw [value_object front (skipBlanks_indent _ rfl _) (by decide), read, Option.map_some]
          simp only [objectOf_named, cut]
  termination_by fuel

/-- Written items are read up to the closing bracket. -/
theorem items_written {v : Value} {vs : List Value} (exact : v.IsExact) (others : AreExact vs)
    (level room fuel : Nat) {cs after rest : List Char}
    (front : skipBlanks cs = (v.writeAt level).toList ++ (itemsBehind level vs ++ after))
    (closing : skipBlanks after = ']' :: rest) (ends : EndsNumber after)
    (enough : 2 * cs.length + 1 < fuel) :
    items fuel room cs = some (cutItems room (v :: vs), rest) := by
  obtain ⟨fuel, rfl⟩ := Nat.exists_eq_succ_of_ne_zero (Nat.ne_zero_of_lt enough)
  cases vs with
  | nil =>
      rw [itemsBehind, List.nil_append] at front
      have first := value_written exact level room fuel front ends (by omega)
      simp [items, first, closing, cutItems]
  | cons w ws =>
      rw [AreExact] at others
      rw [itemsBehind, List.cons_append, List.append_assoc, List.append_assoc] at front
      have first := value_written exact level room fuel front (endsNumber_comma _) (by omega)
      obtain ⟨c, more, word, visible, -⟩ := writeAt_eq_cons others.1 level
      have short := length_skipBlanks_le cs
      have start : skipBlanks ((indent level).toList ++
          ((w.writeAt level).toList ++ (itemsBehind level ws ++ after))) =
            (w.writeAt level).toList ++ (itemsBehind level ws ++ after) := by
        rw [word]
        exact skipBlanks_indent level visible _
      have next := items_written others.1 others.2 level room fuel start closing ends (by
          rw [front] at short
          simp only [List.length_cons, List.length_append] at short ⊢
          omega)
      have comma : isBlank ',' = false := rfl
      simp [items, first, skipBlanks_cons comma, next, cutItems]
  termination_by fuel

/-- Written members are read up to the closing brace. -/
theorem members_written {key : String} {v : Value} {ms : List (String × Value)} (exact : v.IsExact)
    (others : MembersExact ms) (level room fuel : Nat) {cs after rest : List Char}
    (front : skipBlanks cs = memberText level key v ++ (membersBehind level ms ++ after))
    (closing : skipBlanks after = '\x7d' :: rest) (ends : EndsNumber after)
    (enough : 2 * cs.length + 1 < fuel) :
    members fuel room cs = some ((cutMembers room ((key, v) :: ms)).map named, rest) := by
  obtain ⟨fuel, rfl⟩ := Nat.exists_eq_succ_of_ne_zero (Nat.ne_zero_of_lt enough)
  have short := length_skipBlanks_le cs
  rw [memberText, List.append_assoc, List.cons_append, List.cons_append] at front
  rw [members_text front (by omega)]
  rw [front] at short
  simp only [List.length_append, List.length_cons] at short
  obtain ⟨c, more, word, visible, -⟩ := writeAt_eq_cons exact level
  have space (cs : List Char) : skipBlanks (' ' :: ((v.writeAt level).toList ++ cs))
      = (v.writeAt level).toList ++ cs := by
    rw [word]
    exact skipBlanks_append [' '] (by simp [isBlank]) (by rintro _ ⟨⟩; exact visible)
  cases ms with
  | nil =>
      have first := value_written exact level room fuel (space _) ends
        (by simp only [List.length_cons, List.length_append]; omega)
      simp only [membersBehind, List.nil_append, first, Option.bind_some, closing, cutMembers,
        List.map_cons, List.map_nil]
  | cons m ms =>
      obtain ⟨key', w⟩ := m
      rw [MembersExact] at others
      rw [membersBehind] at short ⊢
      rw [List.cons_append, List.append_assoc, List.append_assoc]
      have first := value_written exact level room fuel
        (space (',' :: ((indent level).toList ++
          (memberText level key' w ++ (membersBehind level ms ++ after)))))
        (endsNumber_comma _) (by
          simp only [List.length_cons, List.length_append] at short ⊢
          omega)
      obtain ⟨more', first'⟩ := memberText_eq_cons level key' w
      have start : skipBlanks ((indent level).toList ++
          (memberText level key' w ++ (membersBehind level ms ++ after))) =
            memberText level key' w ++ (membersBehind level ms ++ after) := by
        rw [first']
        exact skipBlanks_indent level rfl _
      have next := members_written others.1 others.2 level room fuel start closing ends (by
          simp only [List.length_cons, List.length_append] at short ⊢
          omega)
      have comma : isBlank ',' = false := rfl
      simp only [first, Option.bind_some, skipBlanks_cons comma, next, cutMembers, List.map_cons]
  termination_by fuel

end

/-- The laid out form of an exact value is read back as what can be read of the value. -/
theorem parse?_writePretty {v : Value} (exact : v.IsExact) :
    parse? v.writePretty = some (v.cut maxNesting) := by
  obtain ⟨c, more, text, visible, -⟩ := writeAt_eq_cons exact 0
  have front : skipBlanks v.writePretty.toList = (v.writeAt 0).toList ++ [] := by
    rw [writePretty, text, List.append_nil]
    exact skipBlanks_cons visible more
  have read := value_written exact 0 maxNesting (2 * v.writePretty.toList.length + 2) front
    (by simp [EndsNumber]) (by omega)
  simp only [parse?, read, skipBlanks, List.dropWhile_nil, List.isEmpty_nil, if_true]

end AdaptiveLL.Json
