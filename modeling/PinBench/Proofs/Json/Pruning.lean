import PinBench.Proofs.Json.KeyOrder

/-! Members that are left out or put in.  A value is `Pruned` if members of its objects are left
out, at any depth, while those that stay may stand in another order and among members with other
names.  A record then has the fields that were kept, each pruned in its turn, and no others
(`Pruned.fields?`). -/

namespace PinBench.Json

/-- Whether a value is no object, so that there are no members to leave out. -/
def isLeaf : Json → Bool
  | .object _ => false
  | _ => true

/-- The second value is the first with members left out and others put in.  Each member is at a path
of names, from the outside in, and `kept` says whether the member at a path is kept. -/
inductive Pruned : (List String → Bool) → Json → Json → Prop
  /-- Nothing is left out or put in. -/
  | whole (j : Json) : Pruned (fun _ => true) j j
  | leaf {kept : List String → Bool} {j : Json} (h : j.isLeaf = true) : Pruned kept j j
  /-- `after` has what is made of each member that is kept. -/
  | record {kept : List String → Bool} {members others all : List (String × Json)}
      (after : String → Json)
      (hafter : ∀ m ∈ members, kept [m.1] = true →
        Pruned (fun path => kept (m.1 :: path)) m.2 (after m.1))
      (hothers : ∀ m ∈ others, m.1 ∉ members.map (·.1))
      (hall : all.Perm
        ((members.filter fun m => kept [m.1]).map (fun m => (m.1, after m.1)) ++ others)) :
      Pruned kept (.record members) (.record all)

theorem record_inj {members members' : List (String × Json)}
    (h : record members = record members') : members = members' := by
  have hkey : Function.Injective fun m : String × Json => (some m.1, m.2) := by
    rintro ⟨name, value⟩ ⟨name', value'⟩ heq
    simpa using heq
  exact List.map_injective_iff.mpr hkey (Json.object.inj h)

/-- Members with other names play no part in what is found under a name. -/
theorem member?_append_of_notMem {members others : List (String × Json)} {name : String}
    (h : name ∉ others.map (·.1)) :
    member? ((members ++ others).map fun m => (some m.1, m.2)) name =
      member? (members.map fun m => (some m.1, m.2)) name := by
  rw [member?, member?, List.map_append, List.filter_append, filter_key_of_notMem h,
    List.append_nil]

theorem fieldOr_ite {α : Type} {read? : Json → Option α} {j : Json} {a default : α} {stays : Bool}
    (h : stays = true → read? j = some a) :
    fieldOr default read? (if stays then some j else none) =
      some (if stays then a else default) := by
  cases stays with
  | true => exact h rfl
  | false => rfl

namespace Pruned

variable {kept : List String → Bool} {j j' : Json}

theorem eq_of_leaf (h : Pruned kept j j') (hleaf : j.isLeaf = true) : j' = j := by
  cases h with
  | whole | leaf => rfl
  | record => cases hleaf

/-- Under the name of a member stands what is made of it, if it is kept, and nothing if it is
not. -/
theorem member?_eq {members others all : List (String × Json)} {after : String → Json}
    (hnames : (members.map (·.1)).Nodup) (hothers : ∀ m ∈ others, m.1 ∉ members.map (·.1))
    (hall : all.Perm
      ((members.filter fun m => kept [m.1]).map (fun m => (m.1, after m.1)) ++ others))
    {m : String × Json} (hm : m ∈ members) :
    member? (all.map fun m => (some m.1, m.2)) m.1 =
      some (if kept [m.1] then some (after m.1) else none) := by
  have hstay : ((members.filter fun m => kept [m.1]).map fun m => (m.1, after m.1)).map (·.1) =
      (members.filter fun m => kept [m.1]).map (·.1) := by simp
  have hfar : m.1 ∉ others.map (·.1) := by
    intro hmem
    obtain ⟨o, ho, heq⟩ := List.mem_map.mp hmem
    exact hothers o ho (heq ▸ List.mem_map_of_mem hm)
  rw [member?_perm (hall.map _), member?_append_of_notMem hfar]
  cases hkept : kept [m.1] with
  | true =>
    have hmem : m ∈ members.filter fun m => kept [m.1] := List.mem_filter.mpr ⟨hm, hkept⟩
    have hdistinct : ((members.filter fun m => kept [m.1]).map (·.1)).Nodup :=
      hnames.sublist (List.filter_sublist.map _)
    rw [← hstay] at hdistinct
    exact member?_record hdistinct (List.mem_map.mpr ⟨m, hmem, rfl⟩)
  | false =>
    refine member?_record_of_notMem ?_
    rw [hstay]
    intro hmem
    obtain ⟨m', hm', heq⟩ := List.mem_map.mp hmem
    have hkept' := (List.mem_filter.mp hm').2
    rw [heq, hkept] at hkept'
    cases hkept'

/-- The fields of a record are those that were kept, each pruned in its turn. -/
theorem fields? {members : List (String × Json)} (h : Pruned kept (Json.record members) j)
    (hnames : (members.map (·.1)).Nodup) :
    ∃ after : String → Json,
      (∀ m ∈ members, kept [m.1] = true →
        Pruned (fun path => kept (m.1 :: path)) m.2 (after m.1)) ∧
      j.fields? (members.map (·.1)) =
        some (members.map fun m => if kept [m.1] then some (after m.1) else none) := by
  generalize hrecord : Json.record members = r at h
  cases h with
  | whole =>
    subst hrecord
    have hfound (m : String × Json) (hm : m ∈ members) :
        member? (members.map fun m => (some m.1, m.2)) m.1 = some (some m.2) :=
      member?_record hnames hm
    obtain ⟨after, hafter⟩ : ∃ after : String → Json, ∀ m ∈ members, after m.1 = m.2 :=
      ⟨fun name => ((member? (members.map fun m => (some m.1, m.2)) name).bind id).getD .null,
        fun m hm => by simp [hfound m hm]⟩
    refine ⟨after, fun m hm _ => ?_, ?_⟩
    · rw [hafter m hm]
      exact whole m.2
    · rw [fields?_record hfound]
      exact congrArg some (List.map_congr_left fun m hm => by rw [hafter m hm, if_pos rfl])
  | leaf hleaf =>
    subst hrecord
    cases hleaf
  | record after hafter hothers hall =>
    obtain rfl := record_inj hrecord
    exact ⟨after, hafter, fields?_record fun m hm => member?_eq hnames hothers hall hm⟩

/-- A field that is no object is read as it was, if it is kept. -/
theorem fieldOr_leaf {α : Type} {read? : Json → Option α} {a default : α} {stays : Bool}
    (h : stays = true → Pruned kept j j') (hleaf : j.isLeaf = true) (hread : read? j = some a) :
    fieldOr default read? (if stays then some j' else none) =
      some (if stays then a else default) := by
  refine fieldOr_ite fun hstays => ?_
  rw [(h hstays).eq_of_leaf hleaf, hread]

end Pruned

end PinBench.Json
