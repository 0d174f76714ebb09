import Mathlib.Logic.Relation
import Mathlib.Data.List.Count
import Mathlib.Data.List.Nodup
import WireCodec.Schema.Shape

/-!
# Union classification finds exactly the unions it can reach

Classification strips the wrappers of a type and then walks the members of what it finds.
Here the walk is characterised by reachability. A member edge leads from a type to the
type inside the wrappers of one of its children (a member on the wire, an item, a key
or a value); `Schema.MemberReach cat t` is what member edges reach from `t`.

Over a graph of types in which one identity always has one name and one shape
(`ShapesAgree`), classification answers "no union" exactly when no union is reachable
from the stripped type, and otherwise answers with the first union it reaches: `true`
when that union is well formed, else the union's fault. Pruning by identity never hides a
union: the walk ends with every identity it has seen expanded, and a type sharing an
identity with an expanded one has its children (`memberReach_settled`). The memo of
`Resolver` returns the same answers as classifying afresh, whatever calls came first.
-/

namespace WireCodec

open Wire

namespace Schema

/-- One step from a type to a type its classification may look at: the type inside a
wrapper, or a child. -/
def PointsTo (cat : Catalog) (s t : Schema) : Prop :=
  s.shape cat = .wrapper t ∨ t ∈ (s.shape cat).children

/-- The types that classifying `root` may look at. -/
def Reaches (cat : Catalog) (root : Schema) : Schema → Prop :=
  Relation.ReflTransGen (PointsTo cat) root

/-- A member edge: from a type to the type inside the wrappers of one of its children. -/
def MemberEdge (cat : Catalog) (u w : Schema) : Prop :=
  ∃ c ∈ (u.shape cat).children, c.unwrap cat = some w

/-- The types reached from `t` along member edges, `t` included. -/
def MemberReach (cat : Catalog) (t : Schema) : Schema → Prop :=
  Relation.ReflTransGen (MemberEdge cat) t

variable {cat : Catalog}

theorem unwrapWithin_reaches {n : Nat} {s t : Schema} (h : s.unwrapWithin cat n = some t) :
    Relation.ReflTransGen (PointsTo cat) s t ∧ ∀ inner, t.shape cat ≠ .wrapper inner := by
  induction n generalizing s with
  | zero =>
    unfold unwrapWithin at h
    split at h
    · cases h
    · case h_2 hnot =>
      cases h
      exact ⟨.refl, hnot⟩
  | succ n ih =>
    unfold unwrapWithin at h
    split at h
    · case h_1 inner hwrap =>
      exact ⟨.head (.inl hwrap) (ih h).1, (ih h).2⟩
    · case h_2 hnot =>
      cases h
      exact ⟨.refl, hnot⟩

theorem unwrap_reaches {s t : Schema} (h : s.unwrap cat = some t) :
    Relation.ReflTransGen (PointsTo cat) s t :=
  (unwrapWithin_reaches h).1

theorem unwrap_not_wrapper {s t : Schema} (h : s.unwrap cat = some t) (inner : Schema) :
    t.shape cat ≠ .wrapper inner :=
  (unwrapWithin_reaches h).2 inner

/-- A type without wrappers is its own unwrapping. -/
theorem unwrap_of_not_wrapper {s : Schema} (h : ∀ inner, s.shape cat ≠ .wrapper inner) :
    s.unwrap cat = some s := by
  unfold unwrap unwrapWithin
  split
  · case h_1 inner hw => exact absurd hw (h inner)
  · rfl

/-- Unwrapping looks only at the shapes on the way. -/
theorem unwrap_of_wrapper {s inner : Schema} (h : s.shape cat = .wrapper inner) :
    s.unwrap cat = inner.unwrapWithin cat 7 := by
  rw [unwrap, unwrapWithin, h]

theorem MemberEdge.pointsTo {u w : Schema} (h : MemberEdge cat u w) :
    Relation.ReflTransGen (PointsTo cat) u w := by
  obtain ⟨c, hc, hw⟩ := h
  exact .head (.inr hc) (unwrap_reaches hw)

theorem MemberReach.pointsTo {t u : Schema} (h : MemberReach cat t u) :
    Relation.ReflTransGen (PointsTo cat) t u := by
  induction h with
  | refl => exact .refl
  | tail _ hedge ih => exact ih.trans hedge.pointsTo

/-- Member edges end at unwrapped types, so nothing reached from an unwrapped type is a
wrapper. -/
theorem MemberReach.not_wrapper {t u : Schema} (ht : ∀ inner, t.shape cat ≠ .wrapper inner)
    (h : MemberReach cat t u) (inner : Schema) : u.shape cat ≠ .wrapper inner := by
  induction h with
  | refl => exact ht inner
  | tail _ hedge _ =>
    obtain ⟨c, _, hw⟩ := hedge
    exact unwrap_not_wrapper hw inner

end Schema

open Schema

/-- Types with one identity have one name and one shape, among the types `S`: what the
runtime guarantees of its type identities. -/
def ShapesAgree (cat : Catalog) (S : Schema → Prop) : Prop :=
  ∀ s t, S s → S t → s.typeId cat = t.typeId cat →
    s.typeName cat = t.typeName cat ∧ s.shape cat = t.shape cat

/-! ### The check of a union's tags -/

theorem repeatedTag_eq_none {seen tags : List Nat} (h : repeatedTag seen tags = none) :
    tags.Nodup ∧ ∀ t ∈ tags, t ∉ seen := by
  induction tags generalizing seen with
  | nil => simp
  | cons t ts ih =>
    unfold repeatedTag at h
    split at h
    · cases h
    · case isFalse hnew =>
      obtain ⟨hnodup, hfresh⟩ := ih h
      refine ⟨List.nodup_cons.2 ⟨fun hmem => hfresh t hmem (List.mem_cons_self ..), hnodup⟩, ?_⟩
      intro x hx
      rcases List.mem_cons.1 hx with rfl | hx
      · exact hnew
      · exact fun hseen => hfresh x hx (List.mem_cons_of_mem _ hseen)

/-- The tag reported repeats: it occurs twice among the tags seen and those left. -/
theorem repeatedTag_eq_some {seen tags : List Nat} {x : Nat} (h : repeatedTag seen tags = some x) :
    2 ≤ (seen ++ tags).count x := by
  induction tags generalizing seen with
  | nil => simp [repeatedTag] at h
  | cons t ts ih =>
    unfold repeatedTag at h
    split at h
    · case isTrue hseen =>
      cases h
      have hin := List.count_pos_iff.2 hseen
      simp only [List.count_append, List.count_cons_self]
      omega
    · have := ih h
      have hperm : (t :: seen ++ ts).count x = (seen ++ t :: ts).count x :=
        List.Perm.count_eq List.perm_middle.symm x
      omega

/-- A union passes the check exactly when it declares tags, all different. -/
theorem validateUnion_eq_ok {name : String} {tags : List Nat} :
    validateUnion name tags = .ok () ↔ tags ≠ [] ∧ tags.Nodup := by
  unfold validateUnion
  constructor
  · intro h
    split at h
    · cases h
    · case isFalse hne =>
      split at h
      · cases h
      · case h_2 hnone =>
        exact ⟨fun he => hne (by simp [he]), (repeatedTag_eq_none hnone).1⟩
  · rintro ⟨hne, hnodup⟩
    rw [if_neg (by simpa using hne)]
    split
    · case h_1 x hx =>
      have hrepeat := repeatedTag_eq_some hx
      have honce := List.nodup_iff_count_le_one.1 hnodup x
      rw [List.nil_append] at hrepeat
      omega
    · rfl

/-- What is wrong with a union: it declares no tags, or it declares one tag twice. -/
def UnionFault (name : String) (tags : List Nat) (e : ResolveError) : Prop :=
  (tags = [] ∧ e = .emptyUnion name) ∨ ∃ tag, 2 ≤ tags.count tag ∧ e = .duplicateDiscriminator name tag

theorem validateUnion_eq_error {name : String} {tags : List Nat} {e : ResolveError}
    (h : validateUnion name tags = .error e) : UnionFault name tags e := by
  unfold validateUnion at h
  split at h
  · case isTrue hempty =>
    cases h
    exact .inl ⟨List.isEmpty_iff.1 hempty, rfl⟩
  · split at h
    · case h_1 x hx =>
      cases h
      exact .inr ⟨x, by simpa using repeatedTag_eq_some hx, rfl⟩
    · cases h

/-! ### What a whole walk establishes -/

theorem walkUnions_through {cat : Catalog} {rest : List Visit} {V : List Nat} (s : Schema) :
    walkUnions cat (.through s :: rest) V = walkUnions cat (.next (s.shape cat).children :: rest) V := by
  rw [walkUnions]

/-- A frame of the walk from `t` is about types reached from `t`: one to walk through, or
children of one. -/
def Visit.Within (cat : Catalog) (t : Schema) : Visit → Prop
  | .through s => MemberReach cat t s
  | .next cs => ∀ c ∈ cs, ∃ u, MemberReach cat t u ∧ c ∈ (u.shape cat).children

/-- A child is settled by the identities `V` when the type inside its wrappers, if it has
few enough, is no union and has its identity in `V`. -/
def Settled (cat : Catalog) (V : List Nat) (c : Schema) : Prop :=
  ∀ w, c.unwrap cat = some w → (∀ tags, w.shape cat ≠ .union tags) ∧ w.typeId cat ∈ V

/-- Every child of `s` is settled. -/
def Expanded (cat : Catalog) (V : List Nat) (s : Schema) : Prop :=
  ∀ c ∈ (s.shape cat).children, Settled cat V c

/-- A frame is done when what it was to visit is settled. -/
def Visit.Done (cat : Catalog) (V : List Nat) : Visit → Prop
  | .through s => Expanded cat V s
  | .next cs => ∀ c ∈ cs, Settled cat V c

section Runs

variable {cat : Catalog} {t : Schema}

theorem Settled.mono {V V' : List Nat} {c : Schema} (h : Settled cat V c) (hV : ∀ x ∈ V, x ∈ V') :
    Settled cat V' c :=
  fun w hw => ⟨(h w hw).1, hV _ (h w hw).2⟩

theorem Expanded.of_shape {V : List Nat} {s u : Schema} (h : Expanded cat V s)
    (hshape : s.shape cat = u.shape cat) : Expanded cat V u := by
  intro c hc
  rw [← hshape] at hc
  exact h c hc

/-- A walk that reaches no union has settled every frame it was given, keeps the
identities it started with, and has expanded a type of every identity it added. -/
theorem walkUnions_eq_false {stack : List Visit} {V V' : List Nat}
    (h : walkUnions cat stack V = .ok (false, V')) (hin : ∀ f ∈ stack, f.Within cat t) :
    (∀ x ∈ V, x ∈ V') ∧ (∀ f ∈ stack, f.Done cat V') ∧
      ∀ x ∈ V', x ∉ V → ∃ u, MemberReach cat t u ∧ u.typeId cat = x ∧ Expanded cat V' u := by
  fun_induction walkUnions cat stack V with
  | case1 V =>
    cases h
    exact ⟨fun _ hx => hx, fun _ hf => absurd hf List.not_mem_nil, fun _ hx hnot => absurd hx hnot⟩
  | case2 s rest V ih =>
    -- the walk through `s` is the visit of its children
    have hs : MemberReach cat t s := hin _ List.mem_cons_self
    obtain ⟨hkeep, hdone, hadded⟩ := ih h fun f hf => by
      rcases List.mem_cons.1 hf with rfl | hf
      · exact fun c hc => ⟨s, hs, hc⟩
      · exact hin f (List.mem_cons_of_mem _ hf)
    refine ⟨hkeep, fun f hf => ?_, hadded⟩
    rcases List.mem_cons.1 hf with rfl | hf
    · exact hdone (.next _) List.mem_cons_self
    · exact hdone f (List.mem_cons_of_mem _ hf)
  | case3 rest V ih =>
    obtain ⟨hkeep, hdone, hadded⟩ := ih h fun f hf => hin f (List.mem_cons_of_mem _ hf)
    refine ⟨hkeep, fun f hf => ?_, hadded⟩
    rcases List.mem_cons.1 hf with rfl | hf
    · exact fun _ hc => absurd hc List.not_mem_nil
    · exact hdone f hf
  | case4 c cs rest V hnone ih =>
    have hcs : Visit.Within cat t (.next cs) := fun c' hc' =>
      hin _ List.mem_cons_self c' (List.mem_cons_of_mem _ hc')
    obtain ⟨hkeep, hdone, hadded⟩ := ih h fun f hf => by
      rcases List.mem_cons.1 hf with rfl | hf
      · exact hcs
      · exact hin f (List.mem_cons_of_mem _ hf)
    refine ⟨hkeep, fun f hf => ?_, hadded⟩
    rcases List.mem_cons.1 hf with rfl | hf
    · intro c' hc'
      rcases List.mem_cons.1 hc' with rfl | hc'
      · exact fun w hw => absurd (hnone.symm.trans hw) (by simp)
      · exact hdone _ List.mem_cons_self c' hc'
    · exact hdone f (List.mem_cons_of_mem _ hf)
  | case5 c cs rest V u hu tags hunion =>
    -- reaching a union answers `true` or fails
    unfold validateUnion at h
    split at h
    · cases h
    · split at h <;> cases h
  | case6 c cs rest V u hu hseen hnotunion ih =>
    have hcs : Visit.Within cat t (.next cs) := fun c' hc' =>
      hin _ List.mem_cons_self c' (List.mem_cons_of_mem _ hc')
    obtain ⟨hkeep, hdone, hadded⟩ := ih h fun f hf => by
      rcases List.mem_cons.1 hf with rfl | hf
      · exact hcs
      · exact hin f (List.mem_cons_of_mem _ hf)
    refine ⟨hkeep, fun f hf => ?_, hadded⟩
    rcases List.mem_cons.1 hf with rfl | hf
    · intro c' hc'
      rcases List.mem_cons.1 hc' with rfl | hc'
      · intro w hw
        rw [hu] at hw
        cases hw
        exact ⟨hnotunion, hkeep _ hseen⟩
      · exact hdone _ List.mem_cons_self c' hc'
    · exact hdone f (List.mem_cons_of_mem _ hf)
  | case7 c cs rest V u hu hnew hnotunion ih =>
    -- `u` is reached from `t` through the child `c` of a reached type
    obtain ⟨p, hp, hcp⟩ := hin _ List.mem_cons_self c List.mem_cons_self
    have hureach : MemberReach cat t u := .tail hp ⟨c, hcp, hu⟩
    have hcs : Visit.Within cat t (.next cs) := fun c' hc' =>
      hin _ List.mem_cons_self c' (List.mem_cons_of_mem _ hc')
    obtain ⟨hkeep, hdone, hadded⟩ := ih h fun f hf => by
      rcases List.mem_cons.1 hf with rfl | hf
      · exact hureach
      rcases List.mem_cons.1 hf with rfl | hf
      · exact hcs
      · exact hin f (List.mem_cons_of_mem _ hf)
    refine ⟨fun x hx => hkeep x (List.mem_cons_of_mem _ hx), fun f hf => ?_, fun x hx hnot => ?_⟩
    · rcases List.mem_cons.1 hf with rfl | hf
      · intro c' hc'
        rcases List.mem_cons.1 hc' with rfl | hc'
        · intro w hw
          rw [hu] at hw
          cases hw
          exact ⟨hnotunion, hkeep _ List.mem_cons_self⟩
        · exact hdone _ (List.mem_cons_of_mem _ List.mem_cons_self) c' hc'
      · exact hdone f (List.mem_cons_of_mem _ (List.mem_cons_of_mem _ hf))
    · by_cases hxu : x = u.typeId cat
      · exact ⟨u, hureach, hxu.symm, hdone _ List.mem_cons_self⟩
      · exact hadded x hx (by simp [hxu, hnot])

/-- A walk that does not answer "no union" has reached a union from `t`, and answers
with that union's check. -/
theorem walkUnions_of_union {stack : List Visit} {V : List Nat}
    {r : Except ResolveError (Bool × List Nat)} (h : walkUnions cat stack V = r)
    (hin : ∀ f ∈ stack, f.Within cat t) (hr : ∀ V', r ≠ .ok (false, V')) :
    ∃ u tags V', MemberReach cat t u ∧ u.shape cat = .union tags ∧
      r = (validateUnion (u.typeName cat) tags).map fun _ => (true, V') := by
  fun_induction walkUnions cat stack V with
  | case1 V => exact absurd h.symm (hr V)
  | case2 s rest V ih =>
    have hs : MemberReach cat t s := hin _ List.mem_cons_self
    exact ih h fun f hf => by
      rcases List.mem_cons.1 hf with rfl | hf
      · exact fun c hc => ⟨s, hs, hc⟩
      · exact hin f (List.mem_cons_of_mem _ hf)
  | case3 rest V ih => exact ih h fun f hf => hin f (List.mem_cons_of_mem _ hf)
  | case4 c cs rest V _ ih =>
    exact ih h fun f hf => by
      rcases List.mem_cons.1 hf with rfl | hf
      · exact fun c' hc' => hin _ List.mem_cons_self c' (List.mem_cons_of_mem _ hc')
      · exact hin f (List.mem_cons_of_mem _ hf)
  | case5 c cs rest V u hu tags hunion =>
    obtain ⟨p, hp, hcp⟩ := hin _ List.mem_cons_self c List.mem_cons_self
    exact ⟨u, tags, V, .tail hp ⟨c, hcp, hu⟩, hunion, h.symm⟩
  | case6 c cs rest V u _ _ _ ih =>
    exact ih h fun f hf => by
      rcases List.mem_cons.1 hf with rfl | hf
      · exact fun c' hc' => hin _ List.mem_cons_self c' (List.mem_cons_of_mem _ hc')
      · exact hin f (List.mem_cons_of_mem _ hf)
  | case7 c cs rest V u hu _ _ ih =>
    obtain ⟨p, hp, hcp⟩ := hin _ List.mem_cons_self c List.mem_cons_self
    exact ih h fun f hf => by
      rcases List.mem_cons.1 hf with rfl | hf
      · exact .tail hp ⟨c, hcp, hu⟩
      rcases List.mem_cons.1 hf with rfl | hf
      · exact fun c' hc' => hin _ List.mem_cons_self c' (List.mem_cons_of_mem _ hc')
      · exact hin f (List.mem_cons_of_mem _ hf)

/-- Pruning hides no union: when every identity seen belongs to an expanded type of `S`
(or to a wrapper there), and types of one identity agree on `S`, everything reached from
`t` is no union and has been seen. -/
theorem memberReach_settled {S : Schema → Prop} {V : List Nat} (hagree : ShapesAgree cat S)
    (hS : ∀ u, MemberReach cat t u → S u) (hwrap : ∀ inner, t.shape cat ≠ .wrapper inner)
    (ht : ∀ tags, t.shape cat ≠ .union tags) (htV : t.typeId cat ∈ V)
    (hV : ∀ x ∈ V, ∃ u, S u ∧ u.typeId cat = x ∧
      (Expanded cat V u ∨ ∃ inner, u.shape cat = .wrapper inner)) :
    ∀ u, MemberReach cat t u → (∀ tags, u.shape cat ≠ .union tags) ∧ u.typeId cat ∈ V := by
  intro u hu
  induction hu with
  | refl => exact ⟨ht, htV⟩
  | @tail u w hu hedge ih =>
    obtain ⟨c, hc, hw⟩ := hedge
    -- the type seen under `u`'s identity has `u`'s shape, so `u`'s children are settled
    obtain ⟨u', hu'S, hid, hexp | ⟨inner, hwrap'⟩⟩ := hV _ ih.2
    · have hshape := (hagree u' u hu'S (hS u hu) hid).2
      exact hexp.of_shape hshape c hc w hw
    · have hshape := (hagree u' u hu'S (hS u hu) hid).2
      exact absurd (hshape ▸ hwrap') (MemberReach.not_wrapper hwrap hu inner)

end Runs

/-! ### Classification -/

/-- Leaves: primitives, buffers and enumerations, which hold no union. -/
def ShapeKind.IsLeaf : ShapeKind → Prop
  | .primitive | .buffer | .enumeration => True
  | _ => False

section Classify

variable {cat : Catalog} {root t : Schema}

theorem classify_of_leaf (h : (root.shape cat).IsLeaf) : classify cat root = .ok false := by
  unfold classify
  split
  · rfl
  · rfl
  · rfl
  · case h_4 hnot =>
    revert h
    cases hs : root.shape cat <;> simp_all [ShapeKind.IsLeaf]

theorem classify_of_unwrap_none (h : root.unwrap cat = none) : classify cat root = .ok false := by
  unfold classify
  split <;> first | rfl | rw [h]

/-- Past the leaves, classification looks at the type inside the root's wrappers. -/
theorem classify_of_not_leaf (hleaf : ¬(root.shape cat).IsLeaf) :
    classify cat root = match root.unwrap cat with
      | none => .ok false
      | some t =>
        match t.shape cat with
        | .union tags => (validateUnion (t.typeName cat) tags).map fun _ => true
        | _ => (walkUnions cat [.through t] [t.typeId cat, root.typeId cat]).map (·.1) := by
  unfold classify
  split
  · case h_1 hs => exact absurd (by rw [hs]; exact trivial) hleaf
  · case h_2 hs => exact absurd (by rw [hs]; exact trivial) hleaf
  · case h_3 hs => exact absurd (by rw [hs]; exact trivial) hleaf
  · rfl

theorem classify_of_unwrap_union (hleaf : ¬(root.shape cat).IsLeaf) (h : root.unwrap cat = some t)
    {tags : List Nat} (ht : t.shape cat = .union tags) :
    classify cat root = (validateUnion (t.typeName cat) tags).map fun _ => true := by
  rw [classify_of_not_leaf hleaf, h]
  simp only [ht]

theorem classify_of_unwrap_walk (hleaf : ¬(root.shape cat).IsLeaf) (h : root.unwrap cat = some t)
    (ht : ∀ tags, t.shape cat ≠ .union tags) :
    classify cat root =
      (walkUnions cat [.through t] [t.typeId cat, root.typeId cat]).map (·.1) := by
  rw [classify_of_not_leaf hleaf, h]
  dsimp only
  split
  · case h_1 tags hu => exact absurd hu (ht tags)
  · rfl

/-- When the answer is not "no union", a union has been reached from the unwrapped type,
and the answer is that union's check. -/
theorem classify_of_union_reached (hleaf : ¬(root.shape cat).IsLeaf)
    (h : root.unwrap cat = some t) (hr : classify cat root ≠ .ok false) :
    ∃ u tags, MemberReach cat t u ∧ u.shape cat = .union tags ∧
      classify cat root = (validateUnion (u.typeName cat) tags).map fun _ => true := by
  by_cases hu : ∃ tags, t.shape cat = .union tags
  · obtain ⟨tags, ht⟩ := hu
    exact ⟨t, tags, .refl, ht, classify_of_unwrap_union hleaf h ht⟩
  · have ht : ∀ tags, t.shape cat ≠ .union tags := fun tags he => hu ⟨tags, he⟩
    rw [classify_of_unwrap_walk hleaf h ht] at hr ⊢
    have hr' : ∀ V', walkUnions cat [.through t] [t.typeId cat, root.typeId cat] ≠
        .ok (false, V') := fun V' he => hr (by rw [he]; rfl)
    obtain ⟨u, tags, V', hu, hshape, hwalk⟩ :=
      walkUnions_of_union rfl (fun f hf => by simp only [List.mem_singleton] at hf; subst hf; exact .refl) hr'
    refine ⟨u, tags, hu, hshape, ?_⟩
    rw [hwalk]
    cases validateUnion (u.typeName cat) tags <;> rfl

/-- Classification answers "no union" exactly when no union is reached from the type
inside the root's wrappers, provided types of one identity agree along the way. -/
theorem classify_eq_false_iff (hleaf : ¬(root.shape cat).IsLeaf) (h : root.unwrap cat = some t)
    (hagree : ShapesAgree cat (Reaches cat root)) :
    classify cat root = .ok false ↔ ∀ u, MemberReach cat t u → ∀ tags, u.shape cat ≠ .union tags := by
  constructor
  · intro hfalse
    have hwrap := unwrap_not_wrapper h
    have ht : ∀ tags, t.shape cat ≠ .union tags := by
      intro tags hu
      rw [classify_of_unwrap_union hleaf h hu] at hfalse
      revert hfalse
      cases validateUnion (t.typeName cat) tags <;> simp [Except.map]
    rw [classify_of_unwrap_walk hleaf h ht] at hfalse
    obtain ⟨V', hwalk⟩ : ∃ V', walkUnions cat [.through t] [t.typeId cat, root.typeId cat] =
        .ok (false, V') := by
      revert hfalse
      rcases walkUnions cat [.through t] [t.typeId cat, root.typeId cat] with _ | ⟨b, V'⟩
      · intro he; cases he
      · intro he; cases he; exact ⟨V', rfl⟩
    obtain ⟨hkeep, hdone, hadded⟩ := walkUnions_eq_false hwalk
      (fun f hf => by simp only [List.mem_singleton] at hf; subst hf; exact .refl)
    have hexp : Expanded cat V' t := hdone (.through t) List.mem_cons_self
    have hroot : Reaches cat root t := unwrap_reaches h
    -- every identity seen is that of an expanded type, or of the root when it is a wrapper
    refine fun u hu => (memberReach_settled hagree (fun u hu => hroot.trans hu.pointsTo) hwrap ht
      (hkeep _ List.mem_cons_self) (fun x hx => ?_) u hu).1
    by_cases hxV : x ∈ [t.typeId cat, root.typeId cat]
    · simp only [List.mem_cons, List.not_mem_nil, or_false] at hxV
      rcases hxV with rfl | rfl
      · exact ⟨t, hroot, rfl, .inl hexp⟩
      · by_cases hrw : ∃ inner, root.shape cat = .wrapper inner
        · exact ⟨root, .refl, rfl, .inr hrw⟩
        · have hself := unwrap_of_not_wrapper fun inner he => hrw ⟨inner, he⟩
          rw [h, Option.some.injEq] at hself
          subst hself
          exact ⟨t, .refl, rfl, .inl hexp⟩
    · obtain ⟨u, hu, hid, hexpu⟩ := hadded x hx hxV
      exact ⟨u, hroot.trans hu.pointsTo, hid, .inl hexpu⟩
  · intro hnone
    by_contra hr
    obtain ⟨u, tags, hu, hshape, -⟩ := classify_of_union_reached hleaf h hr
    exact hnone u hu tags hshape

/-- Classification looks at the root only through its identity, name and shape. -/
theorem classify_congr {s : Schema} (hid : s.typeId cat = t.typeId cat)
    (hname : s.typeName cat = t.typeName cat) (hshape : s.shape cat = t.shape cat) :
    classify cat s = classify cat t := by
  by_cases hleaf : (s.shape cat).IsLeaf
  · rw [classify_of_leaf hleaf, classify_of_leaf (hshape ▸ hleaf)]
  rw [classify_of_not_leaf hleaf, classify_of_not_leaf (hshape ▸ hleaf)]
  by_cases hw : ∃ inner, s.shape cat = .wrapper inner
  · obtain ⟨inner, hwi⟩ := hw
    rw [unwrap_of_wrapper hwi, unwrap_of_wrapper (hshape ▸ hwi), hid]
  · have hs : ∀ inner, s.shape cat ≠ .wrapper inner := fun inner he => hw ⟨inner, he⟩
    rw [unwrap_of_not_wrapper hs, unwrap_of_not_wrapper (hshape ▸ hs)]
    dsimp only
    rw [walkUnions_through, walkUnions_through, hshape, hname, hid]

end Classify

/-! ### The memo -/

namespace Resolver

/-- The answers of a resolver to the calls `roots`, in order. -/
def answers (cat : Catalog) : Resolver → List Schema → List (Except ResolveError Bool)
  | _, [] => []
  | res, root :: roots => (res.isUnion cat root).1 :: answers cat (res.isUnion cat root).2 roots

/-- Every memoized answer is the classification of a type of `S` with that identity. -/
def Sound (cat : Catalog) (S : Schema → Prop) (res : Resolver) : Prop :=
  ∀ id a, (id, a) ∈ res.cache → ∃ s, S s ∧ s.typeId cat = id ∧ classify cat s = a

variable {cat : Catalog} {S : Schema → Prop}

theorem sound_empty : Sound cat S empty := fun _ _ h => absurd h List.not_mem_nil

/-- One call answers the fresh classification and keeps the memo sound, when types of one
identity agree on `S`. -/
theorem isUnion_step {res : Resolver} {root : Schema} (hagree : ShapesAgree cat S) (hS : S root)
    (hres : Sound cat S res) :
    (res.isUnion cat root).1 = classify cat root ∧ Sound cat S (res.isUnion cat root).2 := by
  unfold isUnion
  cases hl : res.cache.lookup (root.typeId cat) with
  | some known =>
    have hmem : (root.typeId cat, known) ∈ res.cache := by
      obtain ⟨l₁, l₂, he, -⟩ := List.lookup_eq_some_iff.1 hl
      rw [he]
      simp
    obtain ⟨s, hs, hid, hcls⟩ := hres _ _ hmem
    obtain ⟨hname, hshape⟩ := hagree s root hs hS hid
    exact ⟨hcls.symm.trans (classify_congr hid hname hshape), hres⟩
  | none =>
    unfold settle
    rw [hl]
    refine ⟨rfl, fun id a hmem => ?_⟩
    rcases List.mem_cons.1 hmem with he | hmem
    · simp only [Prod.mk.injEq] at he
      obtain ⟨rfl, rfl⟩ := he
      exact ⟨root, hS, rfl, rfl⟩
    · exact hres id a hmem

/-- Whatever calls came first, a sound memo answers every call as a fresh classification. -/
theorem answers_eq_classify {res : Resolver} {roots : List Schema} (hagree : ShapesAgree cat S)
    (hS : ∀ root ∈ roots, S root) (hres : Sound cat S res) :
    answers cat res roots = roots.map (classify cat) := by
  induction roots generalizing res with
  | nil => rfl
  | cons root roots ih =>
    obtain ⟨hfirst, hnext⟩ := isUnion_step hagree (hS root List.mem_cons_self) hres
    rw [answers, List.map_cons, hfirst, ih (fun r hr => hS r (List.mem_cons_of_mem _ hr)) hnext]

end Resolver

/-- Union classification is reachability with validation. Over the types that a sequence
of calls may look at, in which one identity always has one name and one shape: leaves
and types with more than eight wrappers hold no union; past them, the answer is "no
union" exactly when no union is reachable from the type inside the wrappers along member
edges, an error only for a reachable union that declares no tags or repeats one, and
`true` only for a reachable union with tags, all different. The memo answers every call
as classifying afresh would. -/
theorem classify_finds_reachable_unions {cat : Catalog} {calls : List Schema}
    (hagree : ShapesAgree cat fun s => ∃ root ∈ calls, Reaches cat root s) :
    (∀ root ∈ calls,
      ((root.shape cat).IsLeaf ∨ root.unwrap cat = none → classify cat root = .ok false) ∧
      ∀ t, ¬(root.shape cat).IsLeaf → root.unwrap cat = some t →
        (classify cat root = .ok false ↔
          ∀ u, MemberReach cat t u → ∀ tags, u.shape cat ≠ .union tags) ∧
        (∀ e, classify cat root = .error e → ∃ u tags, MemberReach cat t u ∧
          u.shape cat = .union tags ∧ UnionFault (u.typeName cat) tags e) ∧
        (classify cat root = .ok true → ∃ u tags, MemberReach cat t u ∧
          u.shape cat = .union tags ∧ tags ≠ [] ∧ tags.Nodup)) ∧
    Resolver.answers cat .empty calls = calls.map (classify cat) := by
  refine ⟨fun root hroot => ⟨?_, fun t hleaf h => ⟨?_, fun e he => ?_, fun htrue => ?_⟩⟩, ?_⟩
  · rintro (hleaf | hnone)
    · exact classify_of_leaf hleaf
    · exact classify_of_unwrap_none hnone
  · exact classify_eq_false_iff hleaf h fun s u hs hu =>
      hagree s u ⟨root, hroot, hs⟩ ⟨root, hroot, hu⟩
  · obtain ⟨u, tags, hu, hshape, hcls⟩ := classify_of_union_reached hleaf h (by rw [he]; simp)
    rw [hcls] at he
    refine ⟨u, tags, hu, hshape, validateUnion_eq_error ?_⟩
    revert he
    cases validateUnion (u.typeName cat) tags <;> simp [Except.map]
  · obtain ⟨u, tags, hu, hshape, hcls⟩ := classify_of_union_reached hleaf h (by rw [htrue]; simp)
    rw [hcls] at htrue
    refine ⟨u, tags, hu, hshape, (@validateUnion_eq_ok (u.typeName cat) tags).1 ?_⟩
    revert htrue
    cases validateUnion (u.typeName cat) tags <;> simp [Except.map]
  · exact Resolver.answers_eq_classify hagree (fun root hroot => ⟨root, hroot, .refl⟩)
      Resolver.sound_empty


/-- A record whose only member is itself: the smallest cyclic graph of types. -/
def selfLoop : Catalog :=
  [{ name := "Loop", path := "demo", body := .record ⟨.named, [{ name := "next", schema := .named "Loop" [] }]⟩ }]

theorem shape_selfLoop :
    Schema.shape selfLoop (.named "Loop" []) = .record [(true, .named "Loop" [])] := by
  simp [Schema.shape, selfLoop, Catalog.find?, Body.subst, Fields.subst, Schema.subst,
    Fields.serialized, Fields.isNewtype]

theorem reaches_selfLoop {s : Schema} (h : Reaches selfLoop (.named "Loop" []) s) :
    s = .named "Loop" [] := by
  induction h with
  | refl => rfl
  | tail _ hstep ih =>
    subst ih
    rcases hstep with hw | hc
    · rw [shape_selfLoop] at hw
      cases hw
    · simpa [shape_selfLoop, ShapeKind.children] using hc

/-- Classifying the self-referential record twice, through the memo. -/
theorem classify_finds_reachable_unions_selfLoop :
    ShapesAgree selfLoop (fun s => ∃ root ∈ [.named "Loop" [], .named "Loop" []],
      Reaches selfLoop root s) ∧
    (∀ root ∈ [Schema.named "Loop" [], .named "Loop" []],
      ((root.shape selfLoop).IsLeaf ∨ root.unwrap selfLoop = none →
        classify selfLoop root = .ok false) ∧
      ∀ t, ¬(root.shape selfLoop).IsLeaf → root.unwrap selfLoop = some t →
        (classify selfLoop root = .ok false ↔
          ∀ u, MemberReach selfLoop t u → ∀ tags, u.shape selfLoop ≠ .union tags) ∧
        (∀ e, classify selfLoop root = .error e → ∃ u tags, MemberReach selfLoop t u ∧
          u.shape selfLoop = .union tags ∧ UnionFault (u.typeName selfLoop) tags e) ∧
        (classify selfLoop root = .ok true → ∃ u tags, MemberReach selfLoop t u ∧
          u.shape selfLoop = .union tags ∧ tags ≠ [] ∧ tags.Nodup)) ∧
    Resolver.answers selfLoop .empty [.named "Loop" [], .named "Loop" []] =
      [Schema.named "Loop" [], .named "Loop" []].map (classify selfLoop) := by
  have hagree : ShapesAgree selfLoop (fun s => ∃ root ∈ [.named "Loop" [], .named "Loop" []],
      Reaches selfLoop root s) := by
    rintro s t ⟨r, hr, hs⟩ ⟨r', hr', ht⟩ -
    simp only [List.mem_cons, List.not_mem_nil, or_false, or_self] at hr hr'
    subst hr hr'
    rw [reaches_selfLoop hs, reaches_selfLoop ht]
    exact ⟨rfl, rfl⟩
  exact ⟨hagree, classify_finds_reachable_unions hagree⟩

end WireCodec
