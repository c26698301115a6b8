import ContentTree.Merge.Target
import ContentTree.Proofs.Tree.Branch
import ContentTree.Proofs.Tree.Content
import Mathlib.Algebra.Group.Nat.Defs
import Mathlib.Data.List.Forall2
import Std.Data.String.ToNat

/-!
# Targets and their keys

Keys name the nodes of a target. They are made of checksums, which may coincide for different
branches, but the occurrence numbers keep the keys apart.

## Main definitions

* `Branch.Alike`: two branches have the same shape and comparable contents.
* `Labelled.labels`: all labels of a target in document order.
* `Labelled.Plain`: texts are leaves, and no fragment or page stands below the root.

## Main results

* `Label.key_injective`: different labels have different keys.
* `Target.nodup_labels`: no two nodes of a target have the same label.
* `Target.equals_ofBranch`: the target of a branch is like the branch.
-/

namespace ContentTree

theorem exists_of_forall₂ {α β : Type} {R : α → β → Prop} {xs : List α} {ys : List β} {x : α}
    (h : List.Forall₂ R xs ys) (hx : x ∈ xs) : ∃ y ∈ ys, R x y := by
  induction h with
  | nil => exact nomatch hx
  | cons hxy _ ih =>
    rcases List.mem_cons.mp hx with rfl | hx
    · exact ⟨_, List.mem_cons_self, hxy⟩
    · obtain ⟨y, hy, hR⟩ := ih hx
      exact ⟨y, List.mem_cons_of_mem _ hy, hR⟩

theorem exists_forall₂ {α β : Type} {R : α → β → Prop} {xs : List α}
    (h : ∀ x ∈ xs, ∃ y, R x y) : ∃ ys, List.Forall₂ R xs ys := by
  induction xs with
  | nil => exact ⟨[], .nil⟩
  | cons x xs ih =>
    obtain ⟨y, hy⟩ := h x List.mem_cons_self
    obtain ⟨ys, hys⟩ := ih fun z hz => h z (List.mem_cons_of_mem _ hz)
    exact ⟨y :: ys, .cons hy hys⟩

/-! ### Branches that are alike -/

namespace Branch

variable {n m : Node} {cs ds : List Branch}

/-- Two branches have the same shape, with comparable contents at corresponding nodes. -/
def Alike : Branch → Branch → Prop
  | ⟨n, cs⟩, ⟨m, ds⟩ => n.toContent.comparable = m.toContent.comparable ∧ listAlike cs ds
where
  listAlike : List Branch → List Branch → Prop
    | [], [] => True
    | c :: cs, d :: ds => Alike c d ∧ listAlike cs ds
    | _, _ => False

theorem listAlike_iff : Alike.listAlike cs ds ↔ List.Forall₂ Alike cs ds := by
  induction cs generalizing ds with
  | nil => cases ds <;> simp [Alike.listAlike]
  | cons c cs ih => cases ds <;> simp [Alike.listAlike, ih]

theorem alike_mk : Alike ⟨n, cs⟩ ⟨m, ds⟩ ↔
    n.toContent.comparable = m.toContent.comparable ∧ List.Forall₂ Alike cs ds := by
  rw [Alike, listAlike_iff]

theorem Alike.symm {b b' : Branch} (h : b.Alike b') : b'.Alike b := by
  induction b generalizing b' with
  | mk n cs ih =>
    obtain ⟨m, ds⟩ := b'
    obtain ⟨hcontent, hall⟩ := alike_mk.mp h
    refine alike_mk.mpr ⟨hcontent.symm, ?_⟩
    clear h
    induction hall with
    | nil => exact .nil
    | cons hcd _ ihall =>
      exact .cons (ih _ List.mem_cons_self hcd)
        (ihall fun c hc => ih c (List.mem_cons_of_mem _ hc))

end Branch

/-! ### Keys -/

namespace Text

theorem hexDigit_injective : ∀ a < 16, ∀ b < 16, hexDigit a = hexDigit b → a = b := by
  decide

theorem length_hexPadded (width n : Nat) : (hexPadded width n).length = width := by
  induction width generalizing n with
  | zero => rfl
  | succ width ih => rw [hexPadded, List.length_append, ih, List.length_singleton]

theorem hexPadded_injective {width a b : Nat} (ha : a < 16 ^ width) (hb : b < 16 ^ width)
    (h : hexPadded width a = hexPadded width b) : a = b := by
  induction width generalizing a b with
  | zero => omega
  | succ width ih =>
    rw [hexPadded, hexPadded] at h
    obtain ⟨hhigh, hlow⟩ := List.append_inj h (by rw [length_hexPadded, length_hexPadded])
    have hdigit := hexDigit_injective _ (Nat.mod_lt a (by decide)) _ (Nat.mod_lt b (by decide))
      (List.singleton_inj.mp hlow)
    have hrest := ih (Nat.div_lt_of_lt_mul (by rwa [← Nat.pow_succ']))
      (Nat.div_lt_of_lt_mul (by rwa [← Nat.pow_succ'])) hhigh
    rw [← Nat.div_add_mod a 16, ← Nat.div_add_mod b 16, hdigit, hrest]

end Text

namespace Merge

variable {α : Type}

theorem Label.toList_key (l : Label) : l.key.toList = Text.hexPadded 8 l.fingerprint.toNat ++
    if l.occurrence = 0 then [] else '#' :: (Nat.repr l.occurrence).toList := by
  unfold key Crc32.hex
  split <;> simp

/-- Different labels have different keys. -/
theorem Label.key_injective : Function.Injective Label.key := by
  rintro ⟨f, k⟩ ⟨f', k'⟩ h
  have hlist := congrArg String.toList h
  rw [toList_key, toList_key] at hlist
  obtain ⟨hhex, hnumber⟩ := List.append_inj hlist
    (by rw [Text.length_hexPadded, Text.length_hexPadded])
  have hf : f = f' :=
    UInt32.toNat_inj.mp (Text.hexPadded_injective f.toNat_lt f'.toNat_lt hhex)
  have hk : k = k' := by
    dsimp only at hnumber
    split at hnumber <;> split at hnumber
    · next hk hk' => rw [hk, hk']
    · exact nomatch hnumber
    · exact nomatch hnumber
    · exact Nat.repr_injective (String.toList_inj.mp (List.cons.inj hnumber).2)
  rw [hf, hk]

namespace Labelled

variable {l : α} {c : Content} {ts : List (Labelled α)} {t : Labelled α} {b b' : Branch} {n : Node}
  {bs : List Branch}

/-- Induction over a target, given the children. -/
@[elab_as_elim, induction_eliminator]
theorem inductionOn {motive : Labelled α → Prop} (t : Labelled α)
    (mk : ∀ l c ts, (∀ t ∈ ts, motive t) → motive (.mk l c ts)) : motive t := by
  refine @Labelled.rec α motive (fun ts => ∀ t ∈ ts, motive t) mk ?_ ?_ t
  · simp
  · intro t ts ht hts
    simpa using ⟨ht, hts⟩

theorem equalsAll_iff : equals.equalsAll ts bs = true ↔
    List.Forall₂ (fun t b => t.equals b = true) ts bs := by
  induction ts generalizing bs with
  | nil => cases bs <;> simp [equals.equalsAll]
  | cons t ts ih => cases bs <;> simp [equals.equalsAll, ih]

theorem equals_mk : (mk l c ts).equals ⟨n, bs⟩ = true ↔
    c.comparable = n.toContent.comparable ∧
      List.Forall₂ (fun t b => t.equals b = true) ts bs := by
  rw [equals, Bool.and_eq_true, decide_eq_true_eq, equalsAll_iff]

/-- Branches that are like the same target are like each other. -/
theorem alike_of_equals (h : t.equals b = true) (h' : t.equals b' = true) : b.Alike b' := by
  induction t generalizing b b' with
  | mk l c ts ih =>
    obtain ⟨n, bs⟩ := b
    obtain ⟨n', bs'⟩ := b'
    obtain ⟨hc, hts⟩ := equals_mk.mp h
    obtain ⟨hc', hts'⟩ := equals_mk.mp h'
    refine Branch.alike_mk.mpr ⟨hc.symm.trans hc', ?_⟩
    clear h h' hc hc'
    induction ts generalizing bs bs' with
    | nil =>
      cases hts
      cases hts'
      exact .nil
    | cons t ts ihts =>
      cases hts with
      | cons ht hts =>
        cases hts' with
        | cons ht' hts' =>
          exact .cons (ih t List.mem_cons_self ht ht')
            (ihts (fun t ht => ih t (List.mem_cons_of_mem _ ht)) _ _ hts hts')

/-- The labels of a target in document order. -/
def labels : Labelled α → List α
  | mk l _ ts => l :: listLabels ts
where
  listLabels : List (Labelled α) → List α
    | [] => []
    | t :: ts => t.labels ++ listLabels ts

/-- The labels of several targets in document order. -/
abbrev allLabels (ts : List (Labelled α)) : List α := labels.listLabels ts

/-- Texts are leaves, and no fragment or page stands below the root. -/
def Plain : Labelled α → Prop
  | mk _ c ts => (c.kind.isText = true → ts = []) ∧ listPlain ts
where
  listPlain : List (Labelled α) → Prop
    | [] => True
    | t :: ts => t.content.kind.isFragment = false ∧ t.content.kind.isPage = false ∧ Plain t ∧
      listPlain ts

theorem plain_mk : Plain (mk l c ts) ↔ (c.kind.isText = true → ts = []) ∧ ∀ t ∈ ts,
    t.content.kind.isFragment = false ∧ t.content.kind.isPage = false ∧ Plain t := by
  have hlist : Plain.listPlain ts ↔ ∀ t ∈ ts,
      t.content.kind.isFragment = false ∧ t.content.kind.isPage = false ∧ Plain t := by
    induction ts with
    | nil => simp [Plain.listPlain]
    | cons t ts ih => simp [Plain.listPlain, ih, and_assoc]
  rw [Plain, hlist]

theorem equals_ofBranch (b : Branch) : (Labelled.ofBranch b).equals b = true := by
  induction b with
  | mk n cs ih =>
    rw [Labelled.ofBranch]
    refine equals_mk.mpr ⟨rfl, ?_⟩
    induction cs with
    | nil => exact .nil
    | cons c cs ihcs =>
      exact .cons (ih c List.mem_cons_self) (ihcs fun c hc => ih c (List.mem_cons_of_mem _ hc))

end Labelled

/-! ### Numbering -/

namespace Target

variable {o o' o'' : Occurrences} {ls ls' : List Label} {f : UInt32} {c : Content}
  {cs : List (Labelled UInt32)} {t : Labelled UInt32} {b : Branch}

/-- Labels are given out one by one: each of them once, and each fingerprint with rising numbers. -/
structure Numbers (o : Occurrences) (ls : List Label) (o' : Occurrences) : Prop where
  nodup : ls.Nodup
  range : ∀ l ∈ ls, o.getD l.fingerprint 0 ≤ l.occurrence ∧
    l.occurrence < o'.getD l.fingerprint 0
  mono : ∀ f, o.getD f 0 ≤ o'.getD f 0

theorem Numbers.append (h : Numbers o ls o') (h' : Numbers o' ls' o'') :
    Numbers o (ls ++ ls') o'' where
  nodup := by
    refine h.nodup.append h'.nodup fun l hl hl' => ?_
    have := (h.range l hl).2
    have := (h'.range l hl').1
    omega
  range l hl := by
    have hmono := h.mono l.fingerprint
    have hmono' := h'.mono l.fingerprint
    rcases List.mem_append.mp hl with hl | hl
    · have := h.range l hl
      omega
    · have := h'.range l hl
      omega
  mono f := (h.mono f).trans (h'.mono f)

theorem numbers_next (o : Occurrences) (f : UInt32) :
    Numbers o [⟨f, o.getD f 0⟩] (o.insert f (o.getD f 0 + 1)) where
  nodup := List.nodup_singleton _
  range l hl := by
    rw [List.mem_singleton.mp hl]
    simp
  mono g := by
    rw [Std.ExtTreeMap.getD_insert]
    split
    · next h =>
      rw [Std.compare_eq_iff_eq.mp h]
      omega
    · exact Nat.le_refl _

theorem number_mk (f : UInt32) (c : Content) (cs : List (Labelled UInt32)) (o : Occurrences) :
    number (.mk f c cs) o =
      (.mk ⟨f, o.getD f 0⟩ c (number.numberAll cs (o.insert f (o.getD f 0 + 1))).1,
        (number.numberAll cs (o.insert f (o.getD f 0 + 1))).2) := rfl

theorem numberAll_cons (t : Labelled UInt32) (cs : List (Labelled UInt32)) (o : Occurrences) :
    number.numberAll (t :: cs) o =
      ((number t o).1 :: (number.numberAll cs (number t o).2).1,
        (number.numberAll cs (number t o).2).2) := rfl

/-- Numbering gives out labels, and leaves the contents and the shape. -/
theorem numbers_number (t : Labelled UInt32) : ∀ o, Numbers o (number t o).1.labels (number t o).2 ∧
    ∀ b, t.equals b = true → (number t o).1.equals b = true := by
  induction t with
  | mk f c cs ih =>
    intro o
    have hall : ∀ o, Numbers o (Labelled.allLabels (number.numberAll cs o).1)
          (number.numberAll cs o).2 ∧
        ∀ bs, List.Forall₂ (fun t b => Labelled.equals t b = true) cs bs →
          List.Forall₂ (fun t b => Labelled.equals t b = true) (number.numberAll cs o).1 bs := by
      induction cs with
      | nil =>
        refine fun o => ⟨⟨List.nodup_nil, fun l hl => (nomatch hl), fun _ => Nat.le_refl _⟩,
          fun bs hbs => ?_⟩
        cases hbs
        exact .nil
      | cons t cs ihcs =>
        intro o
        obtain ⟨ht, hteq⟩ := ih t List.mem_cons_self o
        obtain ⟨hcs, hcseq⟩ := ihcs (fun t ht => ih t (List.mem_cons_of_mem _ ht)) (number t o).2
        rw [numberAll_cons]
        refine ⟨ht.append hcs, fun bs hbs => ?_⟩
        cases hbs with
        | cons hb hbs => exact .cons (hteq _ hb) (hcseq _ hbs)
    obtain ⟨hcs, hcseq⟩ := hall (o.insert f (o.getD f 0 + 1))
    rw [number_mk]
    refine ⟨(numbers_next o f).append hcs, fun b hb => ?_⟩
    obtain ⟨n, bs⟩ := b
    obtain ⟨hc, hbs⟩ := Labelled.equals_mk.mp hb
    exact Labelled.equals_mk.mpr ⟨hc, hcseq bs hbs⟩

/-- No two nodes of a target have the same label. -/
theorem nodup_labels (b : Branch) : (ofBranch b).labels.Nodup :=
  (numbers_number (Labelled.ofBranch b) ∅).1.nodup

/-- The target of a branch is like the branch. -/
theorem equals_ofBranch (b : Branch) : (ofBranch b).equals b = true :=
  (numbers_number (Labelled.ofBranch b) ∅).2 b (Labelled.equals_ofBranch b)

/-- A target is plain where the branch it is like is plain. -/
theorem plain_of_equals {u : Tree} {t : Labelled Label} (hb : b.Shows u) (h : t.equals b = true)
    (hleaf : ∀ n ∈ b.nodes, n.kind.isText = true → n.children = [])
    (hinner : ∀ n ∈ b.inner, n.kind.isFragment = false ∧ n.kind.isPage = false) : t.Plain := by
  induction t generalizing b with
  | mk l c ts ih =>
    obtain ⟨n, bs⟩ := b
    obtain ⟨hc, hbs⟩ := Labelled.equals_mk.mp h
    obtain ⟨-, hchildren, hshows⟩ := Branch.shows_mk.mp hb
    refine Labelled.plain_mk.mpr ⟨fun htext => ?_, fun t ht => ?_⟩
    · have hn := hleaf n (Branch.nodes_mk n bs ▸ List.mem_cons_self)
        ((Kind.isText_eq_of_same (Content.same_of_comparable_eq hc)).trans htext)
      rw [hchildren, List.map_eq_nil_iff] at hn
      rw [hn] at hbs
      exact List.forall₂_nil_right_iff.mp hbs
    · obtain ⟨d, hd, hequal⟩ := exists_of_forall₂ hbs ht
      have hsub : ∀ m ∈ d.nodes, m ∈ Branch.inner ⟨n, bs⟩ := fun m hm =>
        Branch.mem_allNodes.mpr ⟨d, hd, hm⟩
      have hnodes : ∀ m ∈ Branch.inner ⟨n, bs⟩, m ∈ Branch.nodes ⟨n, bs⟩ := fun m hm =>
        Branch.nodes_mk n bs ▸ List.mem_cons_of_mem _ hm
      obtain ⟨hfragment, hpage⟩ := hinner d.node (hsub _ d.node_mem_nodes)
      have hsame : t.content.kind.same d.node.kind = true := by
        obtain ⟨l, c, ts⟩ := t
        obtain ⟨m, ds⟩ := d
        exact Content.same_of_comparable_eq (Labelled.equals_mk.mp hequal).1
      refine ⟨(Kind.isFragment_eq_of_same hsame).symm.trans hfragment,
        (Kind.isPage_eq_of_same hsame).symm.trans hpage, ih t ht (hshows d hd) hequal ?_ ?_⟩
      · exact fun m hm => hleaf m (hnodes m (hsub m hm))
      · intro m hm
        refine hinner m (hsub m ?_)
        obtain ⟨k, ds⟩ := d
        exact Branch.nodes_mk k ds ▸ List.mem_cons_of_mem _ hm

end Target

end Merge

end ContentTree
