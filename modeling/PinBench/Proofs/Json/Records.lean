import Mathlib.Data.List.MinMax
import Mathlib.Order.Nat
import PinBench.Json.Fields

/-! Records in JSON.  A record is as deep as its values and as well-formed as they are.  Its fields
are read back whatever it holds, if no two of them share a name, and a list is read back item by
item. -/

namespace PinBench.Json

/-! ### Shape -/

section Shape

variable (okNumber : List Char → Bool)

theorem depthOfItems_eq (items : List Json) :
    depthOfItems items = (items.map depth).foldr max 0 := by
  induction items with
  | nil => rfl
  | cons item items ih => rw [depthOfItems, ih, List.map_cons, List.foldr_cons]

theorem depthOfMembers_eq (members : List (Option String × Json)) :
    depthOfMembers members = (members.map (·.2.depth)).foldr max 0 := by
  induction members with
  | nil => rfl
  | cons member members ih => rw [depthOfMembers, ih, List.map_cons, List.foldr_cons]

theorem wellFormedItems_eq (items : List Json) :
    wellFormedItems okNumber items = items.all (wellFormed okNumber) := by
  induction items with
  | nil => rfl
  | cons item items ih => rw [wellFormedItems, ih, List.all_cons]

theorem wellFormedMembers_eq (members : List (Option String × Json)) :
    wellFormedMembers okNumber members =
      members.all fun m => m.1.isSome && m.2.wellFormed okNumber := by
  induction members with
  | nil => rfl
  | cons member members ih => rw [wellFormedMembers, ih, List.all_cons]

@[simp]
theorem depth_text (s : String) : (text s).depth = 0 := by
  simp [text, depth]

@[simp]
theorem depth_nat (n : Nat) : (nat n).depth = 0 := by
  simp [nat, depth]

@[simp]
theorem wellFormed_text (s : String) : (text s).wellFormed okNumber = true := by
  simp [text, wellFormed]

theorem depth_array_le {items : List Json} {d : Nat} (h : ∀ item ∈ items, item.depth ≤ d) :
    (Json.array items).depth ≤ d + 1 := by
  rw [depth, depthOfItems_eq]
  exact Nat.succ_le_succ (List.max_le_of_forall_le _ d (List.forall_mem_map.mpr h))

theorem depth_record_le {members : List (String × Json)} {d : Nat}
    (h : ∀ m ∈ members, m.2.depth ≤ d) : (Json.record members).depth ≤ d + 1 := by
  rw [record, depth, depthOfMembers_eq, List.map_map]
  exact Nat.succ_le_succ (List.max_le_of_forall_le _ d (List.forall_mem_map.mpr h))

theorem wellFormed_array {items : List Json} :
    (Json.array items).wellFormed okNumber = true ↔
      ∀ item ∈ items, item.wellFormed okNumber = true := by
  rw [wellFormed, wellFormedItems_eq, List.all_eq_true]

theorem wellFormed_record {members : List (String × Json)} :
    (Json.record members).wellFormed okNumber = true ↔
      ∀ m ∈ members, m.2.wellFormed okNumber = true := by
  rw [record, wellFormed, wellFormedMembers_eq, List.all_map, List.all_eq_true]
  simp

end Shape

/-! ### Fields -/

/-- A field that has to be there, read by a reader of its own. -/
def field? {α : Type} (members : List (Option String × Json)) (name : String)
    (read? : Json → Option α) : Option α :=
  (member? members name).bind fun value => value.bind read?

section Fields

theorem toBool?_bool (value : Bool) : (Json.bool value).toBool? = some value := rfl

theorem toText?_text (s : String) : (text s).toText? = some s := rfl

theorem mapM_eq_some_map {α β : Type} {f : α → Option β} {g : α → β} {xs : List α}
    (h : ∀ a ∈ xs, f a = some (g a)) : xs.mapM f = some (xs.map g) := by
  induction xs with
  | nil => rfl
  | cons a xs ih =>
    rw [List.forall_mem_cons] at h
    rw [List.mapM_cons, h.1, ih h.2]
    rfl

variable {members : List (String × Json)} {name : String} {value : Json}

theorem filter_key_of_notMem (h : name ∉ members.map (·.1)) :
    (members.map fun m => (some m.1, m.2)).filter (·.1 == some name) = [] := by
  rw [List.filter_eq_nil_iff, List.forall_mem_map]
  intro m hm heq
  have hname : m.1 = name := by simpa using heq
  exact h (List.mem_map.mpr ⟨m, hm, hname⟩)

theorem filter_key (h : (members.map (·.1)).Nodup) (hmem : (name, value) ∈ members) :
    (members.map fun m => (some m.1, m.2)).filter (·.1 == some name) = [(some name, value)] := by
  induction members with
  | nil => cases hmem
  | cons m members ih =>
    rw [List.map_cons, List.nodup_cons] at h
    rcases List.mem_cons.mp hmem with rfl | hrest
    · rw [List.map_cons, List.filter_cons_of_pos (by simp), filter_key_of_notMem h.1]
    · have hne : m.1 ≠ name := fun heq => h.1 (heq ▸ List.mem_map_of_mem hrest)
      rw [List.map_cons, List.filter_cons_of_neg (by simpa using hne), ih h.2 hrest]

/-- A field is found under its name. -/
theorem member?_record (h : (members.map (·.1)).Nodup) (hmem : (name, value) ∈ members) :
    member? (members.map fun m => (some m.1, m.2)) name = some (some value) := by
  rw [member?, filter_key h hmem]

theorem member?_record_of_notMem (h : name ∉ members.map (·.1)) :
    member? (members.map fun m => (some m.1, m.2)) name = some none := by
  rw [member?, filter_key_of_notMem h]

theorem field?_record {α : Type} (read? : Json → Option α) (h : (members.map (·.1)).Nodup)
    (hmem : (name, value) ∈ members) :
    field? (members.map fun m => (some m.1, m.2)) name read? = read? value := by
  rw [field?, member?_record h hmem]
  rfl

/-- A record gives its fields to whoever knows what is found under their names. -/
theorem fields?_record {fields : List (String × Json)} {found : String × Json → Option Json}
    (h : ∀ m ∈ fields, member? (members.map fun m => (some m.1, m.2)) m.1 = some (found m)) :
    (record members).fields? (fields.map (·.1)) = some (fields.map found) := by
  have hkeys : (members.map fun m => (some m.1, m.2)).all (fun m => m.1.isSome) = true := by simp
  rw [record, fields?, if_pos hkeys, List.mapM_map]
  exact mapM_eq_some_map h

/-- A record gives its values under its names. -/
theorem allFields?_record (h : (members.map (·.1)).Nodup) :
    (Json.record members).allFields? (members.map (·.1)) = some (members.map (·.2)) := by
  rw [allFields?, fields?_record fun m hm => member?_record h hm, Option.bind_eq_bind,
    Option.bind_some, List.mapM_map]
  exact mapM_eq_some_map fun m _ => rfl

/-- A list of encoded items is read back item by item. -/
theorem toList?_map {α : Type} {encode : α → Json} {item? : Json → Option α}
    (h : ∀ a, item? (encode a) = some a) (items : List α) :
    (Json.array (items.map encode)).toList? item? = some items := by
  have hitems : items.mapM (item? ∘ encode) = some (items.map id) :=
    mapM_eq_some_map fun a _ => h a
  rw [toList?, List.mapM_map, hitems, List.map_id]

end Fields

end PinBench.Json
