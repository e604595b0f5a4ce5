import QuestScript.Proofs.Ast.Keywords
import QuestScript.Proofs.Ast.Roles
import QuestScript.Proofs.Ast.Tree
import QuestScript.Proofs.Check.Catalog

/-! # Counting defects

The defects that a quick fix can put right, and how many of them a document has (`Defect.count`),
told from its marked words alone: its significant lexemes with their roles. Here is what happens to
these numbers when a word is written otherwise (`count_lowercase_lt`, `count_resolve_lt`,
`count_recase_lt`), when a state is declared (`count_declare_lt`) and when a repeated part of a block is
left out (`repeats_remove`). -/

namespace QuestScript

open Ast Lexeme

/-- Something that a quick fix can put right. -/
inductive Defect
  | keywordCasing | referenceCasing | unresolved | duplicateMain | duplicateAttribute
  | duplicateDescription | missingMain
deriving DecidableEq, Repr

/-- The defect that a problem is, if there may be a fix for it. -/
def Problem.defect? : Problem → Option Defect
  | keywordCasing _ => some .keywordCasing
  | referenceCasing _ => some .referenceCasing
  | unresolved _ _ _ => some .unresolved
  | duplicateMain => some .duplicateMain
  | duplicateAttribute _ => some .duplicateAttribute
  | duplicateDescription => some .duplicateDescription
  | missingMain => some .missingMain
  | unterminatedString | invalidInput | expected _ | extraneous _ _ | gotoPreferred
  | argumentCount _ _ _ | argumentType _ _ | duplicateState _ | gotoNotAllowed => none

/-! ### Marked words -/

/-- A significant lexeme and what it says about a symbol. -/
abbrev Mark := Role × Lexeme

/-- The text of a lexeme. -/
def Lexeme.word (l : Lexeme) : String := String.ofList l.text

/-- Lexemes with their roles after a word of kind `before`. -/
def marks : (before : TokenKind) → List Lexeme → List Mark
  | _, [] => []
  | before, l :: ls => (.after before l.kind, l) :: marks l.kind ls

section Marks
variable {before k : TokenKind} {ρ : Role} {ls : List Lexeme} {as bs : List Mark}

theorem map_snd_marks : (marks before ls).map Prod.snd = ls := by
  induction ls generalizing before with
  | nil => rfl
  | cons l ls ih => rw [marks, List.map_cons, ih]

theorem marks_respell {old : List Char} (h : marks before ls = as ++ (ρ, ⟨k, old⟩) :: bs)
    (new : List Char) :
    marks before (as.map Prod.snd ++ ⟨k, new⟩ :: bs.map Prod.snd) =
      as ++ (ρ, ⟨k, new⟩) :: bs := by
  induction as generalizing before ls with
  | nil =>
    cases ls with
    | nil => cases h
    | cons l ls =>
      obtain ⟨hl, rfl⟩ := List.cons.inj h
      obtain ⟨rfl, rfl⟩ := Prod.mk.inj hl
      rw [map_snd_marks]
      rfl
  | cons a as ih =>
    cases ls with
    | nil => cases h
    | cons l ls =>
      obtain ⟨rfl, hrest⟩ := List.cons.inj h
      rw [List.map_cons, List.cons_append, marks, ih hrest, List.cons_append]

end Marks

/-! ### Names -/

/-- The names of the built-ins of a kind, or of the states. -/
def namesOf (flavor : Flavor) (states : List String) : SymbolKind → List String
  | .state => states
  | kind => (Builtin.ofKind flavor kind).map Builtin.name

/-- Two names for a symbol of the kind are the same. -/
def sameName : SymbolKind → (declared name : String) → Bool
  | .state, declared, name => lowercase declared == lowercase name
  | _, declared, name => namesMatch declared name

/-- The first name that is the same. -/
def declared? (flavor : Flavor) (states : List String) (kind : SymbolKind) (name : String) :
    Option String :=
  (namesOf flavor states kind).find? (sameName kind · name)

section Names
variable {flavor : Flavor} {states : List String} {kind : SymbolKind} {name declared : String}

theorem sameName_self (kind : SymbolKind) (name : String) : sameName kind name name = true := by
  unfold sameName namesMatch
  split <;> exact beq_self_eq_true _

theorem sameName_right (h : sameName kind declared name = true) (other : String) :
    sameName kind other declared = sameName kind other name := by
  cases kind with
  | state =>
    have heq : lowercase declared = lowercase name := eq_of_beq h
    simp only [sameName, heq]
  | _ =>
    have heq : declared.toList.flatMap LetterCase.lower = name.toList.flatMap LetterCase.lower :=
      eq_of_beq h
    simp only [sameName, namesMatch, heq]

theorem isSome_declared (h : name ∈ namesOf flavor states kind) :
    (declared? flavor states kind name).isSome = true :=
  List.find?_isSome.mpr ⟨name, h, sameName_self kind name⟩

theorem declared?_declared (h : declared? flavor states kind name = some declared) :
    declared? flavor states kind declared = some declared := by
  have hsame := List.find?_some h
  have hcongr : (sameName kind · declared) = (sameName kind · name) :=
    funext fun other => sameName_right hsame other
  rw [declared?, hcongr]
  exact h

theorem namesOf_mono {more : List String} (h : states ⊆ more) :
    namesOf flavor states kind ⊆ namesOf flavor more kind := by
  cases kind with
  | state => exact h
  | _ => exact List.Subset.refl _

theorem isNone_declared_mono {more : List String} (h : states ⊆ more)
    (hnone : (declared? flavor more kind name).isNone = true) :
    (declared? flavor states kind name).isNone = true := by
  rw [declared?, Option.isNone_iff_eq_none, List.find?_eq_none] at hnone ⊢
  exact fun other hother => hnone other (namesOf_mono h hother)

end Names

/-! ### Words with a defect -/

/-- The names of the states that are declared. -/
def stateNames (ms : List Mark) : List String :=
  (ms.filter (·.1 = .declares)).map (·.2.word)

/-- A keyword that is neither lowercase nor in an accepted spelling. -/
def isMiswritten (casings : List String) (m : Mark) : Bool :=
  m.2.kind.isKeyword && !(m.2.word == lowercase m.2.word || casings.contains m.2.word)

/-- A name that nothing is called. -/
def isUnresolved (flavor : Flavor) (states : List String) (m : Mark) : Bool :=
  match m.1 with
  | .refers kind => (declared? flavor states kind m.2.word).isNone
  | _ => false

/-- A name that is declared in another letter case. -/
def isMiscased (flavor : Flavor) (states : List String) (m : Mark) : Bool :=
  match m.1 with
  | .refers kind => (declared? flavor states kind m.2.word).any (· != m.2.word)
  | _ => false

/-! ### Numbers of defects -/

/-- The keywords among the words. -/
def keywordsOf (ls : List Lexeme) : List Keyword := ls.filterMap (·.kind.keyword?)

/-- **How often a document has a defect**, told from its marked words. -/
def Defect.count (flavor : Flavor) (casings : List String) (ms : List Mark) : Defect → Nat
  | keywordCasing => ms.countP (isMiswritten casings)
  | unresolved => ms.countP (isUnresolved flavor (stateNames ms))
  | referenceCasing => ms.countP (isMiscased flavor (stateNames ms))
  | duplicateMain => (keywordsOf (ms.map Prod.snd)).count .main - 1
  | duplicateAttribute => repeats Keyword.opensAttribute [] (keywordsOf (ms.map Prod.snd))
  | duplicateDescription => repeats (· == .description) [] (keywordsOf (ms.map Prod.snd))
  | missingMain =>
    let ks := keywordsOf (ms.map Prod.snd)
    if ks ≠ [] ∧ .main ∉ ks then 1 else 0

/-! ### Fewer defects -/

section Fewer
variable {flavor : Flavor} {casings : List String} {as bs ns : List Mark} {m : Mark} {ρ : Role}
  {k : TokenKind} {kind : SymbolKind} {old new : List Char}

theorem countP_replace_lt {β : Type} {p : β → Bool} {xs ys : List β} {x y : β} (hx : p x = true)
    (hy : p y = false) : (xs ++ y :: ys).countP p < (xs ++ x :: ys).countP p := by
  rw [List.countP_append, List.countP_append, List.countP_cons_of_pos hx,
    List.countP_cons_of_neg (by simp [hy])]
  omega

theorem countP_lt_countP {β : Type} {p q : β → Bool} {xs : List β} (h : ∀ x ∈ xs, q x = true → p x = true)
    {x : β} (hx : x ∈ xs) (hp : p x = true) (hq : q x = false) : xs.countP q < xs.countP p := by
  obtain ⟨ys, zs, rfl⟩ := List.append_of_mem hx
  have hys : ys.countP q ≤ ys.countP p := List.countP_mono_left fun y hy => h y (by simp [hy])
  have hzs : zs.countP q ≤ zs.countP p := List.countP_mono_left fun z hz => h z (by simp [hz])
  rw [List.countP_append, List.countP_append, List.countP_cons_of_pos hp,
    List.countP_cons_of_neg (by simp [hq])]
  omega

/-- **A keyword is written in lowercase.** -/
theorem count_lowercase_lt (h : isMiswritten casings (ρ, ⟨k, old⟩) = true)
    (hnew : lowercase (String.ofList new) = String.ofList new) :
    Defect.keywordCasing.count flavor casings (as ++ (ρ, ⟨k, new⟩) :: bs) <
      Defect.keywordCasing.count flavor casings (as ++ (ρ, ⟨k, old⟩) :: bs) := by
  refine countP_replace_lt h ?_
  rw [isMiswritten, Lexeme.word, hnew, beq_self_eq_true]
  simp

theorem stateNames_append : stateNames (as ++ bs) = stateNames as ++ stateNames bs := by
  rw [stateNames, List.filter_append, List.map_append]
  rfl

theorem stateNames_refers (x y : Lexeme) :
    stateNames (as ++ (.refers kind, x) :: bs) = stateNames (as ++ (.refers kind, y) :: bs) := by
  rw [stateNames_append, stateNames_append]
  rfl

/-- **A name that nothing is called is replaced by one that something is called.** -/
theorem count_resolve_lt {x y : Lexeme}
    (h : isUnresolved flavor (stateNames (as ++ (.refers kind, x) :: bs)) (.refers kind, x) = true)
    (hnew : y.word ∈ namesOf flavor (stateNames (as ++ (.refers kind, x) :: bs)) kind) :
    Defect.unresolved.count flavor casings (as ++ (.refers kind, y) :: bs) <
      Defect.unresolved.count flavor casings (as ++ (.refers kind, x) :: bs) := by
  unfold Defect.count
  rw [stateNames_refers y x]
  refine countP_replace_lt h ?_
  show Option.isNone _ = false
  rw [Option.isNone_eq_false_iff]
  exact isSome_declared hnew

/-- **A name is written as it is declared.** -/
theorem count_recase_lt {x y : Lexeme}
    (h : declared? flavor (stateNames (as ++ (.refers kind, x) :: bs)) kind x.word = some y.word)
    (hne : x.word ≠ y.word) :
    Defect.referenceCasing.count flavor casings (as ++ (.refers kind, y) :: bs) <
      Defect.referenceCasing.count flavor casings (as ++ (.refers kind, x) :: bs) := by
  unfold Defect.count
  rw [stateNames_refers y x]
  refine countP_replace_lt ?_ ?_
  · show Option.any _ (declared? _ _ _ x.word) = true
    rw [h]
    simpa using hne.symm
  · show Option.any _ (declared? _ _ _ y.word) = false
    rw [declared?_declared h]
    simp

/-- **A state that is missing is declared.** -/
theorem count_declare_lt {name : Lexeme} (hmem : (.refers .state, name) ∈ as ++ bs)
    (h : isUnresolved flavor (stateNames (as ++ bs)) (.refers .state, name) = true)
    (hns : name.word ∈ stateNames ns) (hquiet : ∀ n ∈ ns, n.1.isReference = false) :
    Defect.unresolved.count flavor casings (as ++ (ns ++ bs)) <
      Defect.unresolved.count flavor casings (as ++ bs) := by
  have hnames : stateNames (as ++ (ns ++ bs)) = stateNames as ++ (stateNames ns ++ stateNames bs) := by
    rw [stateNames_append, stateNames_append]
  have hsub : stateNames (as ++ bs) ⊆ stateNames (as ++ (ns ++ bs)) := by
    intro s hs
    rw [stateNames_append, List.mem_append] at hs
    rw [hnames]
    rcases hs with hs | hs <;> simp [hs]
  have hzero : ns.countP (isUnresolved flavor (stateNames (as ++ (ns ++ bs)))) = 0 := by
    refine List.countP_eq_zero.mpr fun n hn => ?_
    have hn := hquiet n hn
    unfold isUnresolved
    cases hrole : n.1 <;> simp_all [Role.isReference]
  have hsame : Defect.unresolved.count flavor casings (as ++ (ns ++ bs)) =
      (as ++ bs).countP (isUnresolved flavor (stateNames (as ++ (ns ++ bs)))) := by
    show List.countP _ _ = _
    rw [List.countP_append, List.countP_append, hzero, List.countP_append, Nat.zero_add]
  rw [hsame]
  refine countP_lt_countP (fun m _ hm => ?_) hmem h ?_
  · unfold isUnresolved at hm ⊢
    cases hrole : m.1 with
    | refers kind =>
      rw [hrole] at hm
      exact isNone_declared_mono hsub hm
    | _ =>
      rw [hrole] at hm
      cases hm
  · have hname : name.word ∈ namesOf flavor (stateNames (as ++ (ns ++ bs))) .state := by
      rw [namesOf, hnames]
      simp [hns]
    have hsome : (declared? flavor (stateNames (as ++ (ns ++ bs))) .state name.word).isSome = true :=
      isSome_declared hname
    show Option.isNone _ = false
    rw [← Option.not_isSome, hsome]
    rfl

end Fewer

end QuestScript
