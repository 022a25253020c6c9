namespace LineScript

/-- A finite map that lists its keys in the order of their first insertion. -/
structure OrderedMap (κ : Type) (ν : Type) where
  entries : List (κ × ν)
  deriving DecidableEq

namespace OrderedMap

variable {κ ν : Type} [DecidableEq κ]

def empty : OrderedMap κ ν := ⟨[]⟩

def get? (map : OrderedMap κ ν) (key : κ) : Option ν :=
  (map.entries.find? (·.1 = key)).map (·.2)

def contains (map : OrderedMap κ ν) (key : κ) : Bool :=
  (map.get? key).isSome

def keys (map : OrderedMap κ ν) : List κ :=
  map.entries.map (·.1)

def size (map : OrderedMap κ ν) : Nat :=
  map.entries.length

def putEntry (key : κ) (value : ν) : List (κ × ν) → List (κ × ν)
  | [] => [(key, value)]
  | entry :: rest =>
    if entry.1 = key then (key, value) :: rest else entry :: putEntry key value rest

/-- Bind a key. A key that is bound already keeps its place. -/
def put (map : OrderedMap κ ν) (key : κ) (value : ν) : OrderedMap κ ν :=
  ⟨putEntry key value map.entries⟩

def putAll (map : OrderedMap κ ν) (entries : List (κ × ν)) : OrderedMap κ ν :=
  entries.foldl (fun map entry => map.put entry.1 entry.2) map

def erase (map : OrderedMap κ ν) (key : κ) : OrderedMap κ ν :=
  ⟨map.entries.filter (·.1 ≠ key)⟩

theorem get?_put (map : OrderedMap κ ν) (key other : κ) (value : ν) :
    (map.put key value).get? other = if key = other then some value else map.get? other := by
  obtain ⟨entries⟩ := map
  simp only [get?, put]
  induction entries with
  | nil => by_cases same : key = other <;> simp [putEntry, same]
  | cons entry rest ih =>
    by_cases here : entry.1 = key
    · by_cases same : key = other
      · simp [putEntry, here, same]
      · simp [putEntry, here, same]
    · by_cases found : entry.1 = other
      · have differ : key ≠ other := fun same => here (found.trans same.symm)
        simp [putEntry, found, differ, differ.symm]
      · simp only [putEntry, here, if_false, List.find?_cons, found, decide_false]
        exact ih

theorem get?_erase (map : OrderedMap κ ν) (key other : κ) :
    (map.erase key).get? other = if key = other then none else map.get? other := by
  obtain ⟨entries⟩ := map
  by_cases same : key = other
  · subst same
    simp [get?, erase]
  · have kept : entries.find? (fun entry => entry.1 ≠ key ∧ entry.1 = other) =
        entries.find? (·.1 = other) := by
      congr 1
      funext entry
      by_cases found : entry.1 = other
      · simp [found, Ne.symm same]
      · simp [found]
    simp only [get?, erase, List.find?_filter, if_neg same]
    simpa using congrArg (Option.map (·.2)) kept

theorem mem_keys_put {map : OrderedMap κ ν} {key other : κ} {value : ν} :
    other ∈ (map.put key value).keys ↔ other = key ∨ other ∈ map.keys := by
  obtain ⟨entries⟩ := map
  simp only [keys, put]
  induction entries with
  | nil => simp [putEntry]
  | cons entry rest ih =>
    by_cases here : entry.1 = key
    · simp [putEntry, here]
    · simp only [putEntry, here, if_false, List.map_cons, List.mem_cons, ih]
      exact or_left_comm

theorem keys_put_nodup {map : OrderedMap κ ν} (nodup : map.keys.Nodup) (key : κ) (value : ν) :
    (map.put key value).keys.Nodup := by
  obtain ⟨entries⟩ := map
  simp only [keys, put] at nodup ⊢
  induction entries with
  | nil => simp [putEntry]
  | cons entry rest ih =>
    rw [List.map_cons, List.nodup_cons] at nodup
    by_cases here : entry.1 = key
    · simpa [putEntry, ← here] using nodup
    · simp only [putEntry, here, if_false, List.map_cons, List.nodup_cons]
      refine ⟨fun member => ?_, ih nodup.2⟩
      rcases (@mem_keys_put _ _ _ ⟨rest⟩ _ _ _).mp member with same | inside
      · exact here same
      · exact nodup.1 inside

/-- A new key comes last. -/
theorem put_of_not_mem {map : OrderedMap κ ν} {key : κ} (absent : key ∉ map.keys) (value : ν) :
    map.put key value = ⟨map.entries ++ [(key, value)]⟩ := by
  obtain ⟨entries⟩ := map
  simp only [put, mk.injEq]
  induction entries with
  | nil => rfl
  | cons entry rest ih =>
    have apart : key ≠ entry.1 := List.ne_of_not_mem_cons absent
    rw [putEntry, if_neg (Ne.symm apart), ih (List.not_mem_of_not_mem_cons absent), List.cons_append]

/-- A key that is bound already keeps its place, as do all others. -/
theorem keys_put_of_mem {map : OrderedMap κ ν} {key : κ} (bound : key ∈ map.keys) (value : ν) :
    (map.put key value).keys = map.keys := by
  obtain ⟨entries⟩ := map
  simp only [keys, put] at bound ⊢
  induction entries with
  | nil => cases bound
  | cons entry rest ih =>
    rw [putEntry]
    split
    · next here => rw [List.map_cons, List.map_cons, here]
    · next apart =>
      have later : key ∈ rest.map (·.1) := (List.mem_cons.mp bound).resolve_left (Ne.symm apart)
      rw [List.map_cons, ih later, List.map_cons]

theorem mem_keys_putAll {map : OrderedMap κ ν} {entries : List (κ × ν)} {key : κ} :
    key ∈ (map.putAll entries).keys ↔ key ∈ entries.map (·.1) ∨ key ∈ map.keys := by
  induction entries generalizing map with
  | nil => simp [putAll]
  | cons entry rest ih =>
    have later : key ∈ (map.putAll (entry :: rest)).keys ↔
        key ∈ rest.map (·.1) ∨ key ∈ (map.put entry.1 entry.2).keys := ih
    rw [later, mem_keys_put, List.map_cons, List.mem_cons]
    exact or_left_comm.trans or_assoc.symm

theorem keys_putAll_nodup {map : OrderedMap κ ν} (nodup : map.keys.Nodup) (entries : List (κ × ν)) :
    (map.putAll entries).keys.Nodup := by
  induction entries generalizing map with
  | nil => exact nodup
  | cons entry rest ih => exact ih (keys_put_nodup nodup _ _)

/-- The keys that were bound keep their places, and the new ones follow in their own order. -/
theorem keys_putAll {map : OrderedMap κ ν} {entries : List (κ × ν)}
    (nodup : (entries.map (·.1)).Nodup) :
    (map.putAll entries).keys = map.keys ++ (entries.map (·.1)).filter (· ∉ map.keys) := by
  induction entries generalizing map with
  | nil => exact (List.append_nil _).symm
  | cons entry rest ih =>
    rw [List.map_cons, List.nodup_cons] at nodup
    have later : (map.putAll (entry :: rest)).keys = (map.put entry.1 entry.2).keys ++
        (rest.map (·.1)).filter (· ∉ (map.put entry.1 entry.2).keys) := ih nodup.2
    rw [later, List.map_cons]
    by_cases bound : entry.1 ∈ map.keys
    · rw [keys_put_of_mem bound, List.filter_cons_of_neg (by simpa using bound)]
    · -- No key of the rest is the new one, so the new one does not take any of them away.
      have others : (rest.map (·.1)).filter (· ∉ (map.put entry.1 entry.2).keys) =
          (rest.map (·.1)).filter (· ∉ map.keys) := by
        apply List.filter_congr
        intro key member
        have apart : key ≠ entry.1 := by
          rintro rfl
          exact nodup.1 member
        simp only [mem_keys_put, apart, false_or]
      have last : (map.put entry.1 entry.2).keys = map.keys ++ [entry.1] := by
        rw [put_of_not_mem bound, keys, List.map_append]
        rfl
      rw [others, last, List.filter_cons_of_pos (by simpa using bound), List.append_assoc,
        List.singleton_append]

/-- A list of entries without a repeated key is the map that it makes. -/
theorem empty_putAll {entries : List (κ × ν)} (nodup : (entries.map (·.1)).Nodup) :
    empty.putAll entries = ⟨entries⟩ := by
  suffices appended : ∀ before : List (κ × ν), ((before ++ entries).map (·.1)).Nodup →
      putAll ⟨before⟩ entries = ⟨before ++ entries⟩ from appended [] nodup
  clear nodup
  induction entries with
  | nil => exact fun before _ => (congrArg mk (List.append_nil before)).symm
  | cons entry rest ih =>
    intro before nodup
    have absent : entry.1 ∉ keys ⟨before⟩ := by
      rw [List.map_append, List.map_cons] at nodup
      intro member
      exact (List.nodup_append.mp nodup).2.2 _ member _ (List.mem_cons_self ..) rfl
    rw [List.append_cons] at nodup ⊢
    rw [← ih _ nodup, ← put_of_not_mem absent]
    rfl

theorem get?_eq_none {map : OrderedMap κ ν} {key : κ} (absent : key ∉ map.keys) :
    map.get? key = none := by
  simp only [get?, Option.map_eq_none_iff, List.find?_eq_none, decide_eq_true_eq]
  rintro entry member rfl
  exact absent (List.mem_map_of_mem member)

theorem get?_of_mem {map : OrderedMap κ ν} (nodup : map.keys.Nodup) {key : κ} {value : ν}
    (member : (key, value) ∈ map.entries) : map.get? key = some value := by
  obtain ⟨entries⟩ := map
  induction entries with
  | nil => cases member
  | cons entry rest ih =>
    have apart := List.nodup_cons.mp nodup
    rcases List.mem_cons.mp member with rfl | later
    · simp [get?]
    · have other : entry.1 ≠ key := by
        rintro rfl
        exact apart.1 (List.mem_map.mpr ⟨_, later, rfl⟩)
      simpa [get?, other] using ih apart.2 later

/-- Of two maps put together the second one counts first. -/
theorem get?_putAll {map : OrderedMap κ ν} {entries : List (κ × ν)}
    (nodup : (entries.map (·.1)).Nodup) (key : κ) :
    (map.putAll entries).get? key = (get? ⟨entries⟩ key).or (map.get? key) := by
  induction entries generalizing map with
  | nil => rfl
  | cons entry rest ih =>
    rw [List.map_cons, List.nodup_cons] at nodup
    have later : (map.putAll (entry :: rest)).get? key =
        (get? ⟨rest⟩ key).or (if entry.1 = key then some entry.2 else map.get? key) := by
      rw [← get?_put]
      exact ih nodup.2
    rw [later]
    by_cases here : entry.1 = key
    · have absent : get? ⟨rest⟩ key = none := get?_eq_none (here ▸ nodup.1)
      rw [absent, Option.none_or, if_pos here]
      simp [get?, here]
    · simp [get?, here]

end OrderedMap

end LineScript
