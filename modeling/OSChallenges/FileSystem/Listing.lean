import OSChallenges.FileSystem.IndexBlocks

/-!
# The array of `fs_listfiles`

`fs_listfiles` counts the names, allocates an array of that many pointers, stores the names in it and
behind them a null pointer. Here are its two loops and the stores into the array.
-/

namespace OSChallenges.FileSystem

open Records Words Outcomes Runs

/-! ### The loops -/

/-- `sizeof(char*)`. -/
def pointerSize : Nat := 8

/-- A store into the array: an index and the entry whose name the pointer is to, or a null pointer. -/
abbrev Store := Nat × Option (Fin maxFiles)

/-- The array that has been allocated, and what is stored through its address, in order. -/
structure Listing where
  bytes : Nat
  stores : List Store
  deriving DecidableEq, Repr

/-- The first loop. -/
def countFiles (directory : Fin maxFiles → DirEntry) : List (Fin maxFiles) → Nat → Nat
  | [], fileCount => fileCount
  | i :: rest, fileCount =>
    if (directory i).name 0 ≠ 0 then countFiles directory rest (fileCount + 1)
    else countFiles directory rest fileCount

/-- The second loop: its stores and the index it ends with. -/
def fillList (directory : Fin maxFiles → DirEntry) : List (Fin maxFiles) → Nat → List Store × Nat
  | [], listIndex => ([], listIndex)
  | i :: rest, listIndex =>
    if (directory i).name 0 ≠ 0 then
      let (stores, last) := fillList directory rest (listIndex + 1)
      ((listIndex, some i) :: stores, last)
    else fillList directory rest listIndex

/-- The array of `fs_listfiles`, if a disk is mounted. -/
def listing (s : State) : Option Listing :=
  if !s.readyForUse then none
  else
    let fileCount := countFiles s.directory (List.finRange maxFiles) 0
    let (stores, listIndex) := fillList s.directory (List.finRange maxFiles) 0
    some ⟨fileCount * pointerSize, stores ++ [(listIndex, none)]⟩

/-- The array after some stores. -/
def afterStores (array : Nat → Option (Option (Fin maxFiles))) :
    List Store → Nat → Option (Option (Fin maxFiles))
  | [] => array
  | p :: rest => afterStores (Function.update array p.1 (some p.2)) rest

/-- An entry of the array when the call returns; one that nothing is stored in holds anything. -/
def Listing.entry (l : Listing) : Nat → Option (Option (Fin maxFiles)) :=
  afterStores (fun _ => none) l.stores

/-! ### What the array should be -/

/-- The entries that have a name, in the order of the directory. -/
def usedEntries (s : State) : List (Fin maxFiles) :=
  (List.finRange maxFiles).filter fun i => (s.directory i).name 0 ≠ 0

/-- The names in order and a null pointer behind them. -/
structure Listing.Lists (l : Listing) (used : List (Fin maxFiles)) : Prop where
  names : ∀ j (hj : j < used.length), l.entry j = some (some used[j])
  terminator : l.entry used.length = some none

/-- The bytes of the store are in the array. -/
def Listing.Within (l : Listing) (p : Store) : Prop := (p.1 + 1) * pointerSize ≤ l.bytes

def ListsExactly (s : State) : Prop :=
  ∃ l, listing s = some l ∧ l.Lists (usedEntries s) ∧ ∀ p ∈ l.stores, l.Within p

variable {s : State} {directory : Fin maxFiles → DirEntry}

theorem mem_usedEntries (s : State) (i : Fin maxFiles) : i ∈ usedEntries s ↔ s.named i := by
  unfold usedEntries Metadata.named DirEntry.named
  rw [List.mem_filter, decide_eq_true_eq]
  exact and_iff_right (List.mem_finRange i)

theorem nodup_usedEntries (s : State) : (usedEntries s).Nodup :=
  (List.nodup_finRange maxFiles).filter _

theorem names_listfiles (hready : s.readyForUse = true) :
    (fsListfiles s).names = (usedEntries s).map fun i => (s.directory i).cName := by
  rw [fsListfiles, hready]
  rfl

/-! ### The loops, in one pass each -/

theorem countFiles_eq (l : List (Fin maxFiles)) (n : Nat) :
    countFiles directory l n = n + (l.filter fun i => (directory i).name 0 ≠ 0).length := by
  induction l generalizing n with
  | nil => rfl
  | cons i rest ih =>
    rw [countFiles]
    by_cases hi : (directory i).name 0 ≠ 0
    · rw [if_pos hi, ih, List.filter_cons, if_pos (decide_eq_true hi), List.length_cons]
      omega
    · rw [if_neg hi, ih, List.filter_cons_of_neg (by simpa using hi)]

/-- The stores of the names, from an index on. -/
def nameStores (used : List (Fin maxFiles)) (n : Nat) : List Store :=
  (used.zipIdx n).map fun p => (p.2, some p.1)

theorem nameStores_cons (i : Fin maxFiles) (used : List (Fin maxFiles)) (n : Nat) :
    nameStores (i :: used) n = (n, some i) :: nameStores used (n + 1) := rfl

theorem fillList_eq (l : List (Fin maxFiles)) (n : Nat) : fillList directory l n =
    (nameStores (l.filter fun i => (directory i).name 0 ≠ 0) n,
      n + (l.filter fun i => (directory i).name 0 ≠ 0).length) := by
  induction l generalizing n with
  | nil => rfl
  | cons i rest ih =>
    rw [fillList]
    by_cases hi : (directory i).name 0 ≠ 0
    · rw [if_pos hi, ih, List.filter_cons, if_pos (decide_eq_true hi), List.length_cons,
        nameStores_cons, Nat.add_right_comm]
      rfl
    · rw [if_neg hi, ih, List.filter_cons_of_neg (by simpa using hi)]

theorem listing_eq (hready : s.readyForUse = true) : listing s = some
    ⟨(usedEntries s).length * pointerSize,
      nameStores (usedEntries s) 0 ++ [((usedEntries s).length, none)]⟩ := by
  unfold listing
  rw [countFiles_eq, fillList_eq, hready, Nat.zero_add]
  rfl

/-! ### The stores -/

theorem afterStores_append (array : Nat → Option (Option (Fin maxFiles))) (l l' : List Store) :
    afterStores array (l ++ l') = afterStores (afterStores array l) l' := by
  induction l generalizing array with
  | nil => rfl
  | cons p rest ih => exact ih _

theorem afterStores_before (array : Nat → Option (Option (Fin maxFiles))) (used : List (Fin maxFiles))
    {n k : Nat} (hk : k < n) : afterStores array (nameStores used n) k = array k := by
  induction used generalizing array n with
  | nil => rfl
  | cons i rest ih =>
    have hnext := ih (Function.update array n (some (some i))) (n := n + 1) (by omega)
    rw [Function.update_of_ne (by omega)] at hnext
    exact hnext

theorem afterStores_name (array : Nat → Option (Option (Fin maxFiles))) {used : List (Fin maxFiles)}
    (n : Nat) {j : Nat} (hj : j < used.length) :
    afterStores array (nameStores used n) (n + j) = some (some used[j]) := by
  induction used generalizing array n j with
  | nil => exact absurd hj (Nat.not_lt_zero j)
  | cons i rest ih =>
    cases j with
    | zero =>
      have hfirst := afterStores_before (Function.update array n (some (some i))) rest
        (n := n + 1) (k := n) (by omega)
      rw [Function.update_self] at hfirst
      exact hfirst
    | succ j =>
      have hnext := ih (Function.update array n (some (some i))) (n + 1) (j := j)
        (Nat.lt_of_succ_lt_succ hj)
      rw [Nat.add_right_comm, Nat.add_assoc] at hnext
      exact hnext

theorem index_of_mem_nameStores {used : List (Fin maxFiles)} {p : Store}
    (hp : p ∈ nameStores used 0) : p.1 < used.length := by
  obtain ⟨⟨i, k⟩, hmem, rfl⟩ := List.mem_map.mp hp
  exact List.snd_lt_of_mem_zipIdx hmem

/-- The array is one entry short, whatever the directory holds: the names are stored in it in order, and
the null pointer behind its end. -/
theorem listing_overruns (hready : s.readyForUse = true) : ¬ ListsExactly s ∧
    ∃ l, listing s = some l ∧ l.Lists (usedEntries s) ∧ (usedEntries s).Nodup ∧
      (∀ i, i ∈ usedEntries s ↔ s.named i) ∧
      (fsListfiles s).names = (usedEntries s).map (fun i => (s.directory i).cName) ∧
      ∀ p ∈ l.stores, ¬ l.Within p ↔ p = ((usedEntries s).length, none) := by
  have hlisting := listing_eq hready
  have hwithin : ∀ p : Store, (⟨(usedEntries s).length * pointerSize,
      nameStores (usedEntries s) 0 ++ [((usedEntries s).length, none)]⟩ : Listing).Within p ↔
      p.1 < (usedEntries s).length := by
    intro p
    show (p.1 + 1) * 8 ≤ (usedEntries s).length * 8 ↔ p.1 < (usedEntries s).length
    omega
  constructor
  · rintro ⟨l, hl, -, hin⟩
    rw [hlisting] at hl
    cases hl
    have hlast := (hwithin _).mp (hin ((usedEntries s).length, none)
      (List.mem_append_right _ (List.mem_singleton.mpr rfl)))
    exact Nat.lt_irrefl _ hlast
  · refine ⟨_, hlisting, ⟨?_, ?_⟩, nodup_usedEntries s, mem_usedEntries s, names_listfiles hready, ?_⟩
    · intro j hj
      have hname := afterStores_name (fun _ => none) 0 hj
      rw [Nat.zero_add] at hname
      unfold Listing.entry
      rw [afterStores_append]
      exact (Function.update_of_ne (by omega) _ _).trans hname
    · unfold Listing.entry
      rw [afterStores_append]
      exact Function.update_self ..
    · intro p hp
      rw [hwithin]
      constructor
      · intro hout
        obtain hname | hlast := List.mem_append.mp hp
        · exact absurd (index_of_mem_nameStores hname) hout
        · exact List.mem_singleton.mp hlast
      · rintro rfl
        exact Nat.lt_irrefl _

/-- No file: the null pointer is stored in an array of no bytes. -/
theorem listing_overruns_newDisk : ¬ ListsExactly newDisk :=
  (listing_overruns (by decide +kernel)).1

/-- One file: the second pointer is stored behind the only one that has been allocated. -/
theorem not_listsExactly_oneFile : EachStep Session.Step (.boot fun _ => .empty) oneFile ∧
    listing (last (.boot fun _ => .empty) oneFile).state =
      some ⟨8, [(0, some ⟨0, by decide⟩), (1, none)]⟩ ∧
    ¬ ListsExactly (last (.boot fun _ => .empty) oneFile).state := by
  have hallows : EachStep (fun w a _ => Session.Allows w a.1 a.2) (.boot fun _ => .empty)
      oneFile := by
    decide +kernel
  have hlisting : listing (last (.boot fun _ => .empty) oneFile).state =
      some ⟨8, [(0, some ⟨0, by decide⟩), (1, none)]⟩ := by
    decide +kernel
  refine ⟨hallows.and (eachStep_trail ..), hlisting, ?_⟩
  rintro ⟨l, hl, -, hin⟩
  rw [hlisting] at hl
  cases hl
  exact absurd (hin (1, none) (by decide)) (by unfold Listing.Within pointerSize; decide)

end OSChallenges.FileSystem
