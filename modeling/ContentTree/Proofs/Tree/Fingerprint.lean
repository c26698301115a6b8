import ContentTree.Proofs.Merge.Fingerprint
import ContentTree.Proofs.Session.Reach

/-!
# Fingerprints of a tree

The fingerprints below a node are found in one pass over its branch, from the last node to the
first. The pass takes in those fingerprints of children that it knows already. In document order
children come after their parent, so that it knows all of them, and what it finds is the fingerprint
that is defined by recursion over the branch. It therefore says nothing of identifiers and places.

## Main results

* `WellFormed.getElem?_fingerprints`: the nodes at and below the root have the fingerprints of their
  branches, and no other node has any.
* `WellFormed.fingerprints_recursive`: each fingerprint is made of the content of its node and of
  the fingerprints of all children in their order, and branches that are alike have the same.
-/

namespace ContentTree.Tree

variable {t : Tree} {root x : NodeId} {n : Node}

namespace WellFormed

variable (h : t.WellFormed)
include h

theorem branch?_eq_none_iff : t.branch? x = none ↔ t.node? x = none := by
  rw [h.branch?_eq, Option.map_eq_none_iff]

open Classical in
/-- The nodes at and below the root have the fingerprints of their branches, and no other node has
any. -/
theorem getElem?_fingerprints : (t.fingerprints root)[x]? =
    if t.Within x root then (t.branch? x).map Fingerprint.ofBranch else none := by
  rw [fingerprints, Fingerprint.ofNodes]
  cases hb : t.branch? root with
  | none =>
    -- Without a root there is nothing at or below it.
    have hnone : t.Within x root → t.branch? x = none := by
      intro hw
      by_contra hne
      obtain ⟨n, hn⟩ := Option.ne_none_iff_exists'.mp (mt h.branch?_eq_none_iff.mpr hne)
      obtain ⟨m, hm⟩ := h.exists_of_within hw hn
      exact Option.some_ne_none _ (hm.symm.trans (h.branch?_eq_none_iff.mp hb))
    rw [branchNodes, hb, List.foldr_nil, Std.ExtTreeMap.getElem?_empty]
    split
    · next hw => rw [hnone hw, Option.map_none]
    · rfl
  | some b =>
    obtain ⟨rfl, hshows⟩ := h.branch?_eq_some_iff.mp hb
    rw [branchNodes, hb, Fingerprint.getElem?_foldr_addNode h hshows,
      if_congr (hshows.mem_ids_iff h) rfl rfl, Std.ExtTreeMap.getElem?_empty]

/-- The fingerprint of a branch, from the content of its root and the branches of all children. -/
theorem ofBranch_of_branch? {b : Branch} (hb : t.branch? x = some b) (hn : t.node? x = some n) :
    ∃ sums : List UInt32,
      n.children.map (fun c => (t.branch? c).map Fingerprint.ofBranch) = sums.map some ∧
      Fingerprint.ofBranch b = Fingerprint.combine n.toContent.fingerprint sums := by
  obtain ⟨rfl, hshows⟩ := h.branch?_eq_some_iff.mp hb
  obtain ⟨m, cs⟩ := b
  obtain ⟨hm, hcs, hall⟩ := Branch.shows_mk.mp hshows
  obtain rfl : m = n := Option.some.inj (hm.symm.trans hn)
  refine ⟨cs.map Fingerprint.ofBranch, ?_, Fingerprint.ofBranch_mk m cs⟩
  rw [hcs, List.map_map, List.map_map]
  refine List.map_congr_left fun c hc => ?_
  rw [Function.comp_apply, h.branch?_eq_some_iff.mpr ⟨rfl, hall c hc⟩]
  rfl

/-- One pass finds the recursive fingerprints. Each node at or below the root has one: the checksum
of four bytes for its own content and four bytes for each of its children in their order, none of
which is left out. No other node has a fingerprint. Nodes whose branches are alike, in the same tree
or in different ones, have the same fingerprint, wherever they stand and whatever identifiers,
owners, grants, stored hashes and versions there are. -/
theorem fingerprints_recursive (root : NodeId) :
    (∀ x n, t.node? x = some n → t.Within x root →
      ∃ sums : List UInt32, n.children.map ((t.fingerprints root)[·]?) = sums.map some ∧
        (t.fingerprints root)[x]? = some (Crc32.ofBytes
          (Crc32.bytes (Crc32.ofString n.comparableText) ++ sums.flatMap Crc32.bytes))) ∧
    (∀ x, (t.fingerprints root)[x]? ≠ none → t.contains x = true ∧ t.Within x root) ∧
    ∀ t' : Tree, t'.WellFormed → ∀ root' x x' b b', t.Within x root → t'.Within x' root' →
      t.branch? x = some b → t'.branch? x' = some b' → b.Alike b' →
      (t.fingerprints root)[x]? = (t'.fingerprints root')[x']? := by
  refine ⟨fun x n hn hw => ?recursive, fun x hx => ?others, ?alike⟩
  case recursive =>
    obtain ⟨b, hb, -⟩ := h.exists_branch hn
    obtain ⟨sums, hsums, hsum⟩ := h.ofBranch_of_branch? hb hn
    refine ⟨sums, ?_, ?_⟩
    · rw [← hsums]
      refine List.map_congr_left fun c hc => ?_
      have hcw : t.Within c root := .head (h.mem_children_iff.mp (children_eq hn ▸ hc)) hw
      rw [h.getElem?_fingerprints, if_pos hcw]
    · rw [h.getElem?_fingerprints, if_pos hw, hb, Option.map_some, hsum]
      rfl
  case others =>
    rw [h.getElem?_fingerprints] at hx
    split at hx
    · next hw =>
      refine ⟨contains_iff.mpr (Option.ne_none_iff_exists'.mp fun hnone => hx ?_), hw⟩
      rw [h.branch?_eq_none_iff.mpr hnone, Option.map_none]
    · exact absurd rfl hx
  case alike =>
    intro t' ht' root' x x' b b' hw hw' hb hb' halike
    rw [h.getElem?_fingerprints, ht'.getElem?_fingerprints, if_pos hw, if_pos hw', hb, hb',
      Option.map_some, Option.map_some, Fingerprint.ofBranch_eq_of_alike halike]

end WellFormed

/-- A paragraph that somebody owns, with a text in it. -/
def ownedParagraph : Snapshot :=
  .mk (some 4) { kind := .element "p" ∅, properties := { owner := some "ada" } } none
    [.mk (some 9) { kind := .text "first" none } none []]

/-- The same paragraph on a page, where it belongs to nobody. -/
def paragraphOnPage : Snapshot :=
  .mk (some 1) { kind := .page "home" 3 false } none
    [.mk (some 2) { kind := .text "second" none } none [],
      .mk (some 3) { kind := .element "p" ∅ } none
        [.mk (some 4) { kind := .text "first" none } none []]]

/-- The two paragraphs have the same fingerprint, which takes in that of the text. -/
theorem fingerprints_recursive_paragraphs :
    ∃ t t' : Tree, t = (({} : Tree).load paragraphOnPage).2 ∧
      t' = (({} : Tree).load ownedParagraph).2 ∧ t.Within 3 1 ∧ t'.Within 4 4 ∧
      (t.fingerprints 1)[3]? = (t'.fingerprints 4)[4]? ∧
      ∃ sum, (t.fingerprints 1)[4]? = some sum ∧ (t.fingerprints 1)[3]? = some (Crc32.ofBytes
        (Crc32.bytes (Crc32.ofString (Content.comparableText { kind := .element "p" ∅ })) ++
          Crc32.bytes sum)) := by
  have hpage : (({} : Tree).load paragraphOnPage).2.Reachable .successful :=
    .load .empty paragraphOnPage ⟨1, by decide⟩
  have howned : (({} : Tree).load ownedParagraph).2.Reachable .successful :=
    .load .empty ownedParagraph ⟨4, by decide⟩
  have hw : Within (({} : Tree).load paragraphOnPage).2 3 1 := .single (by unfold Under; decide)
  obtain ⟨hrecursive, -, halike⟩ := hpage.sound.toWellFormed.fingerprints_recursive 1
  obtain ⟨sums, hsums, hsum⟩ := hrecursive 3
    { kind := .element "p" ∅, id := 3, parent := some 1, children := [4], position := 1,
      document := some 1 } (by decide) hw
  obtain ⟨sum, rfl⟩ : ∃ sum, sums = [sum] :=
    List.length_eq_one_iff.mp (by simpa using (congrArg List.length hsums).symm)
  refine ⟨_, _, rfl, rfl, hw, .refl, ?_, sum, (List.cons.inj hsums).1, ?_⟩
  · refine halike _ howned.sound.toWellFormed 4 3 4 _ _ hw .refl (by rfl) (by rfl) ?_
    exact ⟨by decide, ⟨by decide, trivial⟩, trivial⟩
  · simpa using hsum

end ContentTree.Tree
