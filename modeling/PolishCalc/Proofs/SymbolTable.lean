/-
The symbol table after any sequence of assignments.

`ofList l` sets the bindings of `l` in turn, starting from the empty table. `LastSet l name v` says that this leaves
`name` with the value `v`: it is set to `v`, and not set again after that.

- `get_ofList`, `get_ofList_error`: a name has the value it was last set to, and none if it was never set;
- `size_ofList`: the table counts the names, not the assignments;
- `toList_ascending`, `mem_toList`: each binding is listed once, by the bytes of its name;
- `toList_unique`: there is one such list, so that the history of a table does not show;
- `ofList_canonical`: what a sequence of assignments leaves, by the last values only.
-/
import Mathlib.Tactic
import PolishCalc.Execution
import PolishCalc.Proofs.Text.Bytes

namespace PolishCalc.SymbolTable

/-- the assignments set the name to this value, and do not set it again after that -/
def LastSet (l : List (String × Int32)) (name : String) (v : Int32) : Prop :=
  ∃ pre post, l = pre ++ (name, v) :: post ∧ name ∉ post.map Prod.fst

/-- the names of the bindings go up strictly, byte by byte -/
def Ascending (l : List (String × Int32)) : Prop :=
  l.Pairwise fun a b => Text.encode a.1.toList < Text.encode b.1.toList

/-! ## One more assignment -/

theorem ofList_snoc (l : List (String × Int32)) (b : String × Int32) :
    ofList (l ++ [b]) = (ofList l).set b.1 b.2 := by
  unfold ofList
  rw [List.foldl_append]
  rfl

theorem not_lastSet_nil (name : String) (v : Int32) : ¬ LastSet [] name v := by
  rintro ⟨pre, post, h, -⟩
  simp at h

theorem lastSet_snoc (l : List (String × Int32)) (b : String × Int32) (name : String) (v : Int32) :
    LastSet (l ++ [b]) name v ↔ if b.1 = name then b.2 = v else LastSet l name v := by
  constructor
  · rintro ⟨pre, post, h, hpost⟩
    rcases List.eq_nil_or_concat' post with rfl | ⟨post, c, rfl⟩
    · -- the last assignment is the one
      obtain ⟨-, hb⟩ := List.append_inj' h rfl
      obtain rfl := List.singleton_inj.1 hb
      simp
    · rw [← List.cons_append, ← List.append_assoc] at h
      obtain ⟨hl, hc⟩ := List.append_inj' h rfl
      obtain rfl := List.singleton_inj.1 hc
      simp only [List.map_append, List.mem_append, List.map_cons, List.map_nil, List.mem_singleton, not_or] at hpost
      rw [if_neg (Ne.symm hpost.2)]
      exact ⟨pre, post, hl, hpost.1⟩
  · obtain ⟨n, w⟩ := b
    intro h
    split at h
    · next hn =>
      obtain rfl : n = name := hn
      obtain rfl : w = v := h
      exact ⟨l, [], rfl, by simp⟩
    · next hn =>
      obtain ⟨pre, post, rfl, hpost⟩ := h
      refine ⟨pre, post ++ [(n, w)], by simp, ?_⟩
      simpa [hpost] using Ne.symm hn

/-! ## Lookup -/

/-- **Last write.** A name has the value that it was last set to. -/
theorem get_ofList (l : List (String × Int32)) (name : String) (v : Int32) :
    (ofList l).get name = .ok v ↔ LastSet l name v := by
  induction l using List.reverseRecOn with
  | nil =>
    have hempty : (ofList []).get name = .error (.uninitialized name) := get_empty name
    rw [hempty]
    simp [not_lastSet_nil]
  | append_singleton l b ih =>
    rw [ofList_snoc, get_set, lastSet_snoc, ← ih]
    split <;> simp

/-- a name has no value exactly if it was never set -/
theorem get_ofList_error (l : List (String × Int32)) (name : String) (e : RuntimeError) :
    (ofList l).get name = .error e ↔ name ∉ l.map Prod.fst ∧ e = .uninitialized name := by
  induction l using List.reverseRecOn with
  | nil =>
    have hempty : (ofList []).get name = .error (.uninitialized name) := get_empty name
    rw [hempty]
    simp [eq_comm]
  | append_singleton l b ih =>
    rw [ofList_snoc, get_set]
    split
    · next h => simp [h]
    · next h => simp [ih, Ne.symm h, eq_comm]

theorem contains_ofList (l : List (String × Int32)) (name : String) :
    (ofList l).contains name = true ↔ name ∈ l.map Prod.fst := by
  rw [contains_iff]
  cases hg : (ofList l).get name with
  | ok v =>
    have hmem : name ∈ l.map Prod.fst := by
      obtain ⟨pre, post, rfl, -⟩ := (get_ofList l name v).1 hg
      simp
    simp [hmem]
  | error e =>
    have hmem := ((get_ofList_error l name e).1 hg).1
    simp [hmem]

/-! ## The list of bindings -/

theorem mem_toList (t : SymbolTable) (b : String × Int32) : b ∈ t.toList ↔ t.get b.1 = .ok b.2 := by
  obtain ⟨name, v⟩ := b
  unfold toList get
  rw [Std.ExtTreeMap.mem_toList_iff_getElem?_eq_some]
  split
  · next w hw => simp [hw]
  · next hw => simp [hw]

/-- **Order.** The bindings are listed by the bytes of their names. -/
theorem toList_ascending (t : SymbolTable) : Ascending t.toList := by
  apply t.entries.ordered_keys_toList.imp
  intro a b h
  -- strings are compared by their characters
  have hlt : a.1 < b.1 := compareOfLessAndEq_eq_lt.1 h
  exact Text.encode_lt_encode a.1.toList b.1.toList hlt

theorem Ascending.nodup (l : List (String × Int32)) (h : Ascending l) : (l.map Prod.fst).Nodup := by
  rw [List.Nodup, List.pairwise_map]
  apply h.imp
  intro a b hab heq
  rw [heq] at hab
  exact List.lt_irrefl _ hab

/-- bindings that go up strictly are determined by which they are -/
theorem Ascending.eq_of_mem (l m : List (String × Int32)) (hl : Ascending l) (hm : Ascending m)
    (h : ∀ b, b ∈ l ↔ b ∈ m) : l = m := by
  have hperm : l.Perm m :=
    (List.perm_ext_iff_of_nodup (List.Nodup.of_map _ (hl.nodup l)) (List.Nodup.of_map _ (hm.nodup m))).2 h
  refine hperm.eq_of_pairwise (fun a b _ _ hab hba => ?_) hl hm
  exact absurd hba (List.lt_asymm hab)

/-- **One list.** Any strictly ascending list of the bindings of a table is the list of its bindings. -/
theorem toList_unique (t : SymbolTable) (l : List (String × Int32)) (hl : Ascending l)
    (h : ∀ b, b ∈ l ↔ t.get b.1 = .ok b.2) : t.toList = l :=
  Ascending.eq_of_mem t.toList l t.toList_ascending hl fun b => (mem_toList t b).trans (h b).symm

theorem mem_names (t : SymbolTable) (name : String) : name ∈ t.toList.map Prod.fst ↔ t.contains name = true := by
  rw [contains_iff, List.mem_map]
  constructor
  · rintro ⟨b, hb, rfl⟩
    exact ⟨b.2, (mem_toList t b).1 hb⟩
  · rintro ⟨v, hv⟩
    exact ⟨(name, v), (mem_toList t (name, v)).2 hv, rfl⟩

theorem size_eq_length (t : SymbolTable) : t.size = (t.toList.map Prod.fst).length := by
  rw [List.length_map]
  exact t.entries.length_toList.symm

/-- **Size.** The table counts the names that were set, each of them once. -/
theorem size_ofList (l : List (String × Int32)) : (ofList l).size = (l.map Prod.fst).dedup.length := by
  rw [size_eq_length]
  apply List.Perm.length_eq
  apply (List.perm_ext_iff_of_nodup ((toList_ascending _).nodup _) (List.nodup_dedup _)).2
  intro name
  rw [mem_names, contains_ofList, List.mem_dedup]

/-! ## Canonicity -/

theorem ofList_eq_of_lastSet (l m : List (String × Int32)) (h : ∀ name v, LastSet l name v ↔ LastSet m name v) :
    ofList l = ofList m := by
  apply ext_get
  intro name
  cases hl : (ofList l).get name with
  | ok v => exact ((get_ofList m name v).2 ((h name v).1 ((get_ofList l name v).1 hl))).symm
  | error e =>
    cases hm : (ofList m).get name with
    | ok v =>
      rw [(get_ofList l name v).2 ((h name v).2 ((get_ofList m name v).1 hm))] at hl
      cases hl
    | error e' => rw [get_eq_error _ name e hl, get_eq_error _ name e' hm]

/-- **A canonical map of last writes.** After any sequence of assignments, a name has the value it was last set to, and
none exactly if it was never set. The size is the number of distinct names. The bindings are listed strictly by the
bytes of the names and are the only such list, and the table is displayed line by line in that order. Sequences with
the same last values leave equal tables and equal displays. -/
theorem ofList_canonical (l : List (String × Int32)) :
    (∀ name v, (ofList l).get name = .ok v ↔ LastSet l name v) ∧
    (∀ name e, (ofList l).get name = .error e ↔ name ∉ l.map Prod.fst ∧ e = .uninitialized name) ∧
    (∀ name, (ofList l).contains name = true ↔ ∃ v, (ofList l).get name = .ok v) ∧
    (ofList l).size = (l.map Prod.fst).dedup.length ∧
    (∀ b, b ∈ (ofList l).toList ↔ LastSet l b.1 b.2) ∧ ((ofList l).toList.map Prod.fst).Nodup ∧
    Ascending (ofList l).toList ∧
    (∀ bs, Ascending bs → (∀ b, b ∈ bs ↔ LastSet l b.1 b.2) → (ofList l).toList = bs ∧
      (ofList l).display = String.join (bs.map fun b => b.1 ++ ": " ++ Decimal.ofInt32 b.2 ++ "\n")) ∧
    (∀ m, (∀ name v, LastSet l name v ↔ LastSet m name v) →
      ofList l = ofList m ∧ (ofList l).display = (ofList m).display) := by
  refine ⟨get_ofList l, get_ofList_error l, contains_iff _, size_ofList l, fun b => ?_, ?_, toList_ascending _,
    fun bs hbs h => ?_, fun m h => ?_⟩
  · rw [mem_toList, get_ofList]
  · exact (toList_ascending _).nodup _
  · have hlist : (ofList l).toList = bs := toList_unique _ bs hbs fun b => by rw [h, get_ofList]
    refine ⟨hlist, ?_⟩
    unfold display
    rw [hlist]
  · have heq := ofList_eq_of_lastSet l m h
    exact ⟨heq, congrArg display heq⟩

end PolishCalc.SymbolTable
