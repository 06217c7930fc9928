import AdaptiveLL.Json.Record
import AdaptiveLL.Network.Codec
import AdaptiveLL.Proofs.Json.Text
import Mathlib.Data.List.Nodup
/-!
Records that are written and read again. A writer and a reader keep a value if what is written
is exact and is read back as the value; here they do for numbers, texts, lists and what may be
missing, and a record is taken apart into its members.
-/
namespace AdaptiveLL.Json.Value

variable {α : Type} {write : α → Value} {read : Value → Option α}

/-- Whether a number of a state or of a rule has 64 bits. -/
def IsWord (n : Nat) : Prop :=
  n < 18446744073709551616

/-- Whether a symbol has 32 bits. -/
def IsSymbol (i : Int) : Prop :=
  -2147483648 ≤ i ∧ i ≤ 2147483647

instance (n : Nat) : Decidable (IsWord n) :=
  inferInstanceAs (Decidable (n < 18446744073709551616))

instance (i : Int) : Decidable (IsSymbol i) :=
  inferInstanceAs (Decidable (-2147483648 ≤ i ∧ i ≤ 2147483647))

/-- What is written of the value is exact, and read back it is the value. -/
structure Keeps (write : α → Value) (read : Value → Option α) (a : α) : Prop where
  exact : (write a).IsExact
  reads : read (write a) = some a

theorem keeps_word {n : Nat} (word : IsWord n) : Keeps ofNat asNat? n where
  exact := by
    rw [IsWord] at word
    rw [ofNat, IsExact]
    omega
  reads := by simp [ofNat, asNat?]

theorem keeps_symbol {i : Int} (symbol : IsSymbol i) : Keeps int asSymbol? i where
  exact := by
    rw [IsSymbol] at symbol
    rw [IsExact]
    omega
  reads := if_pos symbol

theorem keeps_bool (b : Bool) : Keeps bool asBool? b where
  exact := by simp only [IsExact]
  reads := rfl

theorem keeps_text (s : String) : Keeps text asText? s where
  exact := by simp only [IsExact]
  reads := rfl

theorem areExact_iff {vs : List Value} : AreExact vs ↔ ∀ v ∈ vs, v.IsExact := by
  induction vs with
  | nil => simp [AreExact]
  | cons v vs ih => simp [AreExact, ih]

theorem isExact_object {ms : List (String × Value)} : (object ms).IsExact ↔ MembersExact ms := by
  rw [IsExact]

@[simp]
theorem membersExact_append {ms ms' : List (String × Value)} :
    MembersExact (ms ++ ms') ↔ MembersExact ms ∧ MembersExact ms' := by
  induction ms with
  | nil => simp [MembersExact]
  | cons m ms ih =>
      rw [List.cons_append, MembersExact, MembersExact, ih, and_assoc]

theorem keeps_list {as : List α} (all : ∀ a ∈ as, Keeps write read a) :
    Keeps (ofList write) (asList? read) as where
  exact := by
    rw [ofList, IsExact, areExact_iff]
    exact List.forall_mem_map.2 fun a mem => (all a mem).exact
  reads := by
    rw [ofList, asList?, List.mapM_map]
    simpa using mapM_some (f := read ∘ write) (g := id) fun a mem => (all a mem).reads

/-- A value that may be missing is read where its form is not the one of a missing value. -/
theorem Keeps.orNull {a : α} (kept : Keeps write read a) (shown : write a ≠ null) :
    orNull? read (write a) = some (some a) := by
  rw [orNull?, kept.reads]
  · rfl
  · exact shown

theorem keeps_option {o : Option α} (all : ∀ a ∈ o, Keeps write read a)
    (shown : ∀ a, write a ≠ null) : Keeps (ofOption write) (orNull? read) o where
  exact := by
    cases o with
    | none => simp only [ofOption, IsExact]
    | some a => exact (all a rfl).exact
  reads := by
    cases o with
    | none => rfl
    | some a => exact (all a rfl).orNull (shown a)

/-! ### Members -/

mutual

theorem isReadable_of_isExact {v : Value} (exact : v.IsExact) : v.isReadable = true := by
  cases v with
  | unreadable | real => exact exact.elim
  | null | bool | int | text => rw [isReadable]
  | list items =>
      rw [IsExact] at exact
      rw [isReadable, areReadable_of_areExact exact]
  | object members =>
      rw [IsExact] at exact
      rw [isReadable, membersReadable_of_membersExact exact]

theorem areReadable_of_areExact {vs : List Value} (exact : AreExact vs) :
    areReadable vs = true := by
  cases vs with
  | nil => rw [areReadable]
  | cons v vs =>
      rw [AreExact] at exact
      rw [areReadable, isReadable_of_isExact exact.1, areReadable_of_areExact exact.2,
        Bool.true_and]

theorem membersReadable_of_membersExact {ms : List (String × Value)} (exact : MembersExact ms) :
    membersReadable ms = true := by
  cases ms with
  | nil => rw [membersReadable]
  | cons m ms =>
      obtain ⟨key, v⟩ := m
      rw [MembersExact] at exact
      rw [membersReadable, isReadable_of_isExact exact.1, membersReadable_of_membersExact exact.2,
        Bool.true_and]

end

/-- The fields of a record are found by their names, if no name occurs twice. -/
theorem fields?_object {ms : List (String × Value)} (once : (ms.map Prod.fst).Nodup)
    (names : List String) : (object ms).fields? names = some (names.map (ms.lookup ·)) := by
  have single (name : String) : (ms.filter (·.1 == name)).length ≤ 1 := by
    have count := List.nodup_iff_count_le_one.1 once name
    rwa [List.count, List.countP_map, List.countP_eq_length_filter] at count
  rw [fields?, members?, if_pos (by simp [single])]

/-- The fields of a record that has them in order, some of them left out. -/
theorem fields?_ordered {ms : List (String × Value)} {names : List String}
    (ordered : (ms.map Prod.fst).Sublist names) (once : names.Nodup) :
    (object ms).fields? names = some (names.map (ms.lookup ·)) :=
  fields?_object (ordered.nodup once) names

@[simp]
theorem required?_some (v : Value) : required? read (some v) = read v :=
  rfl

@[simp]
theorem orElse?_none (default : α) : orElse? default read none = some default :=
  rfl

@[simp]
theorem orElse?_some (default : α) (v : Value) : orElse? default read (some v) = read v :=
  rfl

/-- A record with its tag in front. -/
theorem tagged?_object {tag : String} {ms : List (String × Value)} (exact : MembersExact ms)
    (others : ∀ m ∈ ms, m.1 ≠ "type") :
    (object (("type", text tag) :: ms)).tagged? = some (tag, object ms) := by
  have readable : (object (("type", text tag) :: ms)).isReadable = true :=
    isReadable_of_isExact (by simpa only [IsExact, MembersExact, true_and] using exact)
  have none : ms.filter (·.1 == "type") = [] := by
    simpa [List.filter_eq_nil_iff] using others
  have rest : ms.filter (fun m => !(m.1 == "type")) = ms := by
    simpa [List.filter_eq_self] using others
  rw [tagged?, if_pos readable]
  simp [List.partition_eq_filter_filter, none, Function.comp_def, rest]

/-- Tagged records are kept if their fields are read once the tag is known. -/
theorem keeps_tagged {readTagged : String → Value → Option α} {a : α} {tag : String}
    (ms : List (String × Value)) (form : write a = object (("type", text tag) :: ms))
    (exact : MembersExact ms) (others : ∀ m ∈ ms, m.1 ≠ "type")
    (reads : readTagged tag (object ms) = some a) :
    Keeps write (fun v => do
      let (tag, others) ← v.tagged?
      readTagged tag others) a where
  exact := by simpa only [form, IsExact, MembersExact, true_and] using exact
  reads := by simp [form, tagged?_object exact others, reads]

@[simp]
theorem lookup_listUnlessEmpty {key name : String} (other : key ≠ name) (as : List α) :
    (listUnlessEmpty name write as).lookup key = none := by
  cases as with
  | nil => rfl
  | cons a as => simp [listUnlessEmpty, other]

theorem keys_listUnlessEmpty (name : String) (as : List α) :
    ((listUnlessEmpty name write as).map Prod.fst).Sublist [name] := by
  cases as with
  | nil => simp [listUnlessEmpty]
  | cons a as => exact .refl _

/-- An empty list that is left out is read back all the same. -/
theorem orElse?_listUnlessEmpty (name : String) {as : List α}
    (kept : Keeps (ofList write) (asList? read) as) :
    orElse? [] (asList? read) ((listUnlessEmpty name write as).lookup name) = some as := by
  cases as with
  | nil => rfl
  | cons a as =>
      simp [listUnlessEmpty, kept.reads]

theorem membersExact_listUnlessEmpty (name : String) {as : List α}
    (kept : Keeps (ofList write) (asList? read) as) :
    MembersExact (listUnlessEmpty name write as) := by
  cases as with
  | nil => simp only [listUnlessEmpty, MembersExact]
  | cons a as => simpa only [listUnlessEmpty, MembersExact, and_true] using kept.exact

end AdaptiveLL.Json.Value
