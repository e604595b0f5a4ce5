import Mathlib.Data.List.Forall2
import Mathlib.Data.List.Nodup
import QuestScript.Json.Value

/-! # Records in JSON

Which values are read as a record, said without the reader: `Json.Holds` is what the members of an object
say under a name, and `Json.Gives` what a value says about each field of a record, be it an object with
members in any order and others among them or an array of the leading fields. The reader finds exactly
that (`Json.fields?_eq_some_iff`), and in particular what an object was made of
(`Json.fields?_ofMembers`). Likewise for lists (`Json.list?_eq_some_iff`, `Json.list?_map`) and for
alternatives that hold nothing (`Json.unit?_eq_some_iff`). -/

namespace QuestScript

theorem mapM_eq_some_iff {α β : Type} {f : α → Option β} {as : List α} {bs : List β} :
    as.mapM f = some bs ↔ List.Forall₂ (fun a b => f a = some b) as bs := by
  induction as generalizing bs with
  | nil =>
    rw [List.mapM_nil, List.forall₂_nil_left_iff]
    exact ⟨fun h => (Option.some.inj h).symm, fun h => congrArg some h.symm⟩
  | cons a as ih =>
    rw [List.mapM_cons, Option.bind_eq_bind, Option.bind_eq_some_iff, List.forall₂_cons_left_iff]
    constructor
    · rintro ⟨b, hb, h⟩
      obtain ⟨bs, hbs, h⟩ := Option.bind_eq_some_iff.mp h
      exact ⟨b, bs, hb, ih.mp hbs, (Option.some.inj h).symm⟩
    · rintro ⟨b, bs, hb, hbs, rfl⟩
      exact ⟨b, hb, Option.bind_eq_some_iff.mpr ⟨bs, ih.mpr hbs, rfl⟩⟩

namespace Json

/-! ### Members of an object -/

/-- What the members say under a name: nothing if no member has it, the value if one does. Members of
one name contradict each other. -/
inductive Holds (members : List (Option String × Json)) (name : String) : Option Json → Prop
  | absent (h : ∀ m ∈ members, m.1 ≠ some name) : Holds members name none
  | present {before after : List (Option String × Json)} {value : Json}
      (h : members = before ++ (some name, value) :: after)
      (hbefore : ∀ m ∈ before, m.1 ≠ some name) (hafter : ∀ m ∈ after, m.1 ≠ some name) :
      Holds members name (some value)

theorem filter_eq_nil_iff {members : List (Option String × Json)} {name : String} :
    members.filter (·.1 == some name) = [] ↔ ∀ m ∈ members, m.1 ≠ some name := by
  rw [List.filter_eq_nil_iff]
  exact forall₂_congr fun m _ => not_congr beq_iff_eq

theorem member?_eq_some_iff {members : List (Option String × Json)} {name : String}
    {value : Option Json} : member? members name = some value ↔ Holds members name value := by
  constructor
  · rw [member?]
    split
    · rename_i hnil
      rintro ⟨⟩
      exact .absent (filter_eq_nil_iff.mp hnil)
    · rename_i m hone
      rintro ⟨⟩
      obtain ⟨before, after, rfl, hbefore, hm, hafter⟩ := List.filter_eq_cons_iff.mp hone
      obtain ⟨_, value⟩ := m
      obtain rfl : _ = some name := eq_of_beq hm
      exact .present rfl (fun m hm h => hbefore m hm (beq_iff_eq.mpr h)) (filter_eq_nil_iff.mp hafter)
    · rintro ⟨⟩
  · intro h
    cases h with
    | absent h => rw [member?, filter_eq_nil_iff.mpr h]
    | present h hbefore hafter =>
      rw [member?, h, List.filter_append, filter_eq_nil_iff.mpr hbefore, List.nil_append,
        List.filter_cons_of_pos (by simp), filter_eq_nil_iff.mpr hafter]

/-! ### Fields of a record -/

/-- What a value says about each field of a record, in the order of their names. -/
inductive Gives (names : List String) : Json → List (Option Json) → Prop
  /-- An object says it by name. -/
  | object {members : List (Option String × Json)} {values : List (Option Json)}
      (hnames : ∀ m ∈ members, m.1.isSome) (h : List.Forall₂ (Holds members) names values) :
      Gives names (.object members) values
  /-- An array says it in order, and nothing about the fields it is too short for. -/
  | array {items : List Json} {missing : List (Option Json)} (hmissing : ∀ v ∈ missing, v = none)
      (hlength : items.length + missing.length = names.length) :
      Gives names (.array items) (items.map some ++ missing)

/-- **The fields read are those the value gives.** -/
theorem fields?_eq_some_iff {names : List String} {j : Json} {values : List (Option Json)} :
    j.fields? names = some values ↔ Gives names j values := by
  constructor
  · intro h
    cases j with
    | array items =>
      rw [fields?] at h
      split at h
      · obtain rfl := Option.some.inj h
        refine .array (fun v => List.eq_of_mem_replicate) ?_
        rw [List.length_replicate]
        omega
      · cases h
    | object members =>
      rw [fields?] at h
      split at h
      · rename_i hnames
        refine .object (List.all_eq_true.mp hnames) ?_
        exact (mapM_eq_some_iff.mp h).imp fun _ _ => member?_eq_some_iff.mp
      · cases h
    | _ => cases h
  · intro h
    cases h with
    | @object members _ hnames h =>
      rw [fields?, if_pos (List.all_eq_true.mpr hnames), mapM_eq_some_iff]
      exact h.imp fun _ _ => member?_eq_some_iff.mpr
    | @array items missing hmissing hlength =>
      rw [fields?, if_pos (by omega), List.eq_replicate_of_mem hmissing, ← hlength,
        Nat.add_sub_cancel_left]

theorem fields?_ofMembers {members : List (String × Json)} {names : List String}
    (hnames : members.map (·.1) = names) (h : names.Nodup) :
    (ofMembers members).fields? names = some (members.map (some ·.2)) := by
  subst hnames
  refine fields?_eq_some_iff.mpr (.object ?_ ?_)
  · intro m hm
    obtain ⟨_, -, rfl⟩ := List.mem_map.mp hm
    rfl
  · rw [List.forall₂_map_left_iff, List.forall₂_map_right_iff, List.forall₂_same]
    intro m hm
    obtain ⟨before, after, rfl⟩ := List.append_of_mem hm
    rw [List.map_append, List.map_cons, List.nodup_middle, List.nodup_cons, List.mem_append] at h
    have hother : ∀ others : List (String × Json), m.1 ∉ others.map (·.1) →
        ∀ o ∈ others.map fun o => (some o.1, o.2), o.1 ≠ some m.1 := by
      intro others hothers o ho heq
      obtain ⟨other, hother, rfl⟩ := List.mem_map.mp ho
      exact hothers (List.mem_map.mpr ⟨other, hother, Option.some.inj heq⟩)
    rw [List.map_append, List.map_cons]
    exact .present rfl (hother before fun h' => h.1 (.inl h')) (hother after fun h' => h.1 (.inr h'))

/-! ### Lists and alternatives -/

theorem list?_eq_some_iff {α : Type} {f : Json → Option α} {j : Json} {as : List α} :
    j.list? f = some as ↔
      ∃ items, j = .array items ∧ List.Forall₂ (fun item a => f item = some a) items as := by
  constructor
  · intro h
    cases j with
    | array items => exact ⟨items, rfl, mapM_eq_some_iff.mp h⟩
    | _ => cases h
  · rintro ⟨items, rfl, h⟩
    exact mapM_eq_some_iff.mpr h

theorem list?_map {α : Type} {f : Json → Option α} {g : α → Json} {as : List α}
    (h : ∀ a ∈ as, f (g a) = some a) : (array (as.map g)).list? f = some as := by
  refine list?_eq_some_iff.mpr ⟨_, rfl, ?_⟩
  rw [List.forall₂_map_left_iff, List.forall₂_same]
  exact h

@[simp] theorem text?_ofText (text : String) : (ofText text).text? = some text := rfl

theorem text?_eq_some_iff {j : Json} {text : String} : j.text? = some text ↔ j = .ofText text := by
  constructor
  · intro h
    cases j with
    | string t => exact congrArg string h
    | _ => cases h
  · rintro rfl
    rfl

/-- The value names an alternative that holds nothing. -/
def IsUnit (name : String) (j : Json) : Prop := j = .ofText name ∨ j = .ofMembers [(name, .null)]

theorem unit?_eq_some_iff {j : Json} {name : String} : j.unit? = some name ↔ IsUnit name j := by
  constructor
  · intro h
    rw [unit?] at h
    split at h
    · rename_i heq
      obtain rfl := Option.some.inj h
      unfold alternative? at heq
      split at heq <;> cases heq
      exact .inl rfl
    · rename_i heq
      obtain rfl := Option.some.inj h
      unfold alternative? at heq
      split at heq <;> cases heq
      exact .inr rfl
    · cases h
  · rintro (rfl | rfl) <;> rfl

/-- An alternative is looked up by its name, which has to find it. -/
theorem unit?_bind_find?_eq_some_iff {α : Type} {name : α → String} {all : List α}
    (hfind : ∀ a, all.find? (fun x => name x == name a) = some a) {j : Json} {a : α} :
    (j.unit?.bind fun text => all.find? fun x => name x == text) = some a ↔ IsUnit (name a) j := by
  rw [Option.bind_eq_some_iff]
  constructor
  · rintro ⟨text, hunit, h⟩
    have hname := List.find?_some h
    rw [eq_of_beq hname]
    exact unit?_eq_some_iff.mp hunit
  · intro h
    exact ⟨name a, unit?_eq_some_iff.mpr h, hfind a⟩

end Json

end QuestScript
