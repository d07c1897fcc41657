import Mathlib.Data.List.Forall2
import Mathlib.Data.List.Perm.Basic
import PinBench.Proofs.Json.Records

/-! The order of keys.  Two values are `Reordered` when they differ only in the order of the members
of their objects, at any depth.  What is read of the one is then what is read of the other: a
scalar, the items of a list or the fields of a record. -/

namespace PinBench.Json

/-- The second value is the first with the members of objects anywhere in it in another order. -/
inductive Reordered : Json → Json → Prop
  | refl (j : Json) : Reordered j j
  | trans {a b c : Json} : Reordered a b → Reordered b c → Reordered a c
  | keys {members members' : List (Option String × Json)} :
      members.Perm members' → Reordered (.object members) (.object members')
  | item {j j' : Json} (before after : List Json) :
      Reordered j j' → Reordered (.array (before ++ j :: after)) (.array (before ++ j' :: after))
  | member {j j' : Json} (key : Option String) (before after : List (Option String × Json)) :
      Reordered j j' →
        Reordered (.object (before ++ (key, j) :: after)) (.object (before ++ (key, j') :: after))

/-- Members with the same keys in the same order, whose values are reordered. -/
def Alike (members members' : List (Option String × Json)) : Prop :=
  members.Forall₂ (fun m m' => m.1 = m'.1 ∧ Reordered m.2 m'.2) members'

namespace Reordered

instance : Std.Refl Reordered := ⟨.refl⟩

variable {j j' : Json}

theorem forall₂_item (h : Reordered j j') (before after : List Json) :
    (before ++ j :: after).Forall₂ Reordered (before ++ j' :: after) :=
  List.rel_append (List.forall₂_refl before) (.cons h (List.forall₂_refl after))

theorem alike_member (h : Reordered j j') (key : Option String)
    (before after : List (Option String × Json)) :
    Alike (before ++ (key, j) :: after) (before ++ (key, j') :: after) := by
  have hsame : ∀ members : List (Option String × Json), Alike members members := fun members =>
    List.forall₂_same.mpr fun m _ => ⟨rfl, .refl m.2⟩
  exact List.rel_append (hsame before) (.cons ⟨rfl, h⟩ (hsame after))

/-- Members that are kept by their keys stay reordered. -/
theorem filter_member (h : Reordered j j') (key : Option String)
    (before after : List (Option String × Json)) (p : Option String → Bool) :
    Reordered (.object ((before ++ (key, j) :: after).filter (p ·.1)))
      (.object ((before ++ (key, j') :: after).filter (p ·.1))) := by
  rw [List.filter_append, List.filter_append, List.filter_cons, List.filter_cons]
  split
  · exact h.member key _ _
  · exact .refl _

end Reordered

/-! ### Shape -/

section Shape

variable {j j' : Json}

theorem Reordered.depth_eq (h : Reordered j j') : j.depth = j'.depth := by
  induction h with
  | refl => rfl
  | trans _ _ ih ih' => exact ih.trans ih'
  | keys hperm => rw [depth, depth, depthOfMembers_eq, depthOfMembers_eq, (hperm.map _).foldr_eq]
  | item before after _ ih => simp only [depth, depthOfItems_eq, List.map_append, List.map_cons, ih]
  | member key before after _ ih =>
    simp only [depth, depthOfMembers_eq, List.map_append, List.map_cons, ih]

theorem Reordered.wellFormed_eq (h : Reordered j j') (okNumber : List Char → Bool) :
    j.wellFormed okNumber = j'.wellFormed okNumber := by
  induction h with
  | refl => rfl
  | trans _ _ ih ih' => exact ih.trans ih'
  | keys hperm =>
    rw [wellFormed, wellFormed, wellFormedMembers_eq, wellFormedMembers_eq, hperm.all_eq]
  | item before after _ ih =>
    simp only [wellFormed, wellFormedItems_eq, List.all_append, List.all_cons, ih]
  | member key before after _ ih =>
    simp only [wellFormed, wellFormedMembers_eq, List.all_append, List.all_cons, ih]

end Shape

/-! ### Scalars and lists -/

namespace Reordered

variable {j j' : Json} {α : Type}

theorem toText?_eq (h : Reordered j j') : j.toText? = j'.toText? := by
  induction h with
  | trans _ _ ih ih' => exact ih.trans ih'
  | _ => rfl

theorem toNat?_eq (h : Reordered j j') (bound : Nat) : j.toNat? bound = j'.toNat? bound := by
  induction h with
  | trans _ _ ih ih' => exact ih.trans ih'
  | _ => rfl

theorem toUInt32?_eq (h : Reordered j j') : j.toUInt32? = j'.toUInt32? := by
  rw [toUInt32?, toUInt32?, h.toNat?_eq]

theorem toUInt64?_eq (h : Reordered j j') : j.toUInt64? = j'.toUInt64? := by
  rw [toUInt64?, toUInt64?, h.toNat?_eq]

theorem toList?_eq {item? : Json → Option α}
    (hitem : ∀ {j j' : Json}, Reordered j j' → item? j = item? j') (h : Reordered j j') :
    j.toList? item? = j'.toList? item? := by
  induction h with
  | trans _ _ ih ih' => exact ih.trans ih'
  | item before after h _ => simp only [toList?, List.mapM_append, List.mapM_cons, hitem h]
  | _ => rfl

end Reordered

/-! ### Members -/

section Members

variable {members members' : List (Option String × Json)}

theorem member?_perm (h : members.Perm members') (name : String) :
    member? members name = member? members' name := by
  have hperm := h.filter fun m => m.1 == some name
  unfold member?
  generalize members.filter _ = found at *
  generalize members'.filter _ = found' at *
  match found, found' with
  | [], _ => rw [hperm.nil_eq]
  | [m], _ => rw [List.singleton_perm.mp hperm]
  | _ :: _ :: _, found' =>
    have hlength := hperm.length_eq
    match found' with
    | [] | [_] => simp at hlength
    | _ :: _ :: _ => rfl

theorem Alike.filter (h : Alike members members') (p : Option String → Bool) :
    Alike (members.filter (p ·.1)) (members'.filter (p ·.1)) :=
  List.rel_filter (fun _ _ hm => by simp only [hm.1]) h

theorem Alike.member? (h : Alike members members') (name : String) :
    Option.Rel (Option.Rel Reordered) (Json.member? members name) (Json.member? members' name) := by
  have hfound := h.filter (· == some name)
  unfold Json.member?
  generalize members.filter _ = found at *
  generalize members'.filter _ = found' at *
  match hfound with
  | .nil => exact .some .none
  | .cons hm .nil => exact .some (.some hm.2)
  | .cons _ (.cons _ _) => exact .none

theorem Alike.all_isSome (h : Alike members members') :
    (members.all fun m => m.1.isSome) = members'.all fun m => m.1.isSome := by
  induction h with
  | nil => rfl
  | cons hm _ ih => rw [List.all_cons, List.all_cons, ih, hm.1]

theorem field?_perm {α : Type} (h : members.Perm members') (name : String)
    (read? : Json → Option α) : field? members name read? = field? members' name read? := by
  rw [field?, field?, member?_perm h]

theorem Alike.field?_eq {α : Type} {read? : Json → Option α}
    (hread : ∀ {j j' : Json}, Reordered j j' → read? j = read? j') (h : Alike members members')
    (name : String) : field? members name read? = field? members' name read? := by
  unfold field?
  match Json.member? members name, Json.member? members' name, h.member? name with
  | _, _, .none => rfl
  | _, _, .some .none => rfl
  | _, _, .some (.some hvalue) => exact hread hvalue

end Members

/-! ### Records -/

section Records

variable {α β : Type} {R : α → α → Prop} {S : β → β → Prop}

theorem rel_refl (hR : ∀ a, R a a) (x : Option α) : Option.Rel R x x := by
  cases x with
  | none => exact .none
  | some a => exact .some (hR a)

theorem rel_trans (hR : ∀ {a b c}, R a b → R b c → R a c) {x y z : Option α}
    (hxy : Option.Rel R x y) (hyz : Option.Rel R y z) : Option.Rel R x z := by
  cases hxy with
  | none => exact hyz
  | some hab =>
    cases hyz with
    | some hbc => exact .some (hR hab hbc)

theorem forall₂_trans (hR : ∀ {a b c}, R a b → R b c → R a c) {xs ys zs : List α}
    (hxy : xs.Forall₂ R ys) (hyz : ys.Forall₂ R zs) : xs.Forall₂ R zs := by
  induction hxy generalizing zs with
  | nil => exact hyz
  | cons hab _ ih =>
    cases hyz with
    | cons hbc hrest => exact .cons (hR hab hbc) (ih hrest)

/-- Lists that are read item by item. -/
theorem rel_mapM {f g : α → Option β} (hfg : ∀ {a b}, R a b → Option.Rel S (f a) (g b))
    {xs ys : List α} (h : xs.Forall₂ R ys) :
    Option.Rel (List.Forall₂ S) (xs.mapM f) (ys.mapM g) := by
  induction h with
  | nil => exact .some .nil
  | @cons a b xs ys hab _ ih =>
    rw [List.mapM_cons, List.mapM_cons]
    match f a, g b, hfg hab, xs.mapM f, ys.mapM g, ih with
    | _, _, .none, _, _, _ => exact .none
    | _, _, .some _, _, _, .none => exact .none
    | _, _, .some hhead, _, _, .some hrest => exact .some (.cons hhead hrest)

end Records

variable {j j' : Json}

theorem forall₂_rel_refl (fields : List (Option Json)) :
    fields.Forall₂ (Option.Rel Reordered) fields :=
  List.forall₂_same.mpr fun field _ => rel_refl .refl field

/-- The fields of a record are those of the reordered one. -/
theorem Reordered.fields? (h : Reordered j j') (names : List String) :
    Option.Rel (List.Forall₂ (Option.Rel Reordered)) (j.fields? names) (j'.fields? names) := by
  induction h with
  | refl j => exact rel_refl forall₂_rel_refl _
  | trans _ _ ih ih' => exact rel_trans (forall₂_trans (rel_trans .trans)) ih ih'
  | @keys members members' hperm =>
    have hmember : member? members = member? members' := funext (member?_perm hperm)
    rw [Json.fields?, Json.fields?, hperm.all_eq, hmember]
    exact rel_refl forall₂_rel_refl _
  | item before after h _ =>
    have hitems := h.forall₂_item before after
    rw [Json.fields?, Json.fields?, hitems.length_eq]
    split
    · exact .some (List.rel_append (List.rel_map (fun _ _ hitem => .some hitem) hitems)
        (forall₂_rel_refl _))
    · exact .none
  | member key before after h _ =>
    have hmembers := h.alike_member key before after
    rw [Json.fields?, Json.fields?, hmembers.all_isSome]
    split
    · exact rel_mapM (R := Eq) (fun hname => hname ▸ hmembers.member? _) (List.forall₂_refl names)
    · exact .none

theorem Reordered.allFields? (h : Reordered j j') (names : List String) :
    Option.Rel (List.Forall₂ Reordered) (j.allFields? names) (j'.allFields? names) := by
  unfold Json.allFields?
  match j.fields? names, j'.fields? names, h.fields? names with
  | _, _, .none => exact .none
  | _, _, .some hfields => exact rel_mapM id hfields

/-- What is made of the fields of a record is made of those of the reordered one. -/
theorem Reordered.bind_allFields?_eq {α : Type} {make : List Json → Option α}
    (hmake : ∀ {fields fields'}, fields.Forall₂ Reordered fields' → make fields = make fields')
    (h : Reordered j j') (names : List String) :
    (j.allFields? names).bind make = (j'.allFields? names).bind make := by
  match j.allFields? names, j'.allFields? names, h.allFields? names with
  | _, _, .none => rfl
  | _, _, .some hfields => exact hmake hfields

end PinBench.Json
