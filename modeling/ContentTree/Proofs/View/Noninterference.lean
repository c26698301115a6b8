import ContentTree.Proofs.Session.Reach
import ContentTree.Proofs.Tree.Branch
import ContentTree.Proofs.View.Agree
import ContentTree.Proofs.View.Hidden

/-!
# Hidden nodes leave no trace on a page

The page of a tree is compared with that of a tree which shows what is not hidden in the first. The
walk over the first comes to hidden nodes as well, enters none of them, and goes on as if it had not
come there. What a page says of its nodes depends on their content, on their identifiers and on the
audience of their page, and on nothing else that the trees may differ in.

Hidden nodes evaluate nothing, and so the clock of a pass is read at the same lookups in the two
walks. As time may pass in any way between two readings, values expire on the way in both or in
neither.

## Main definitions

* `Services.Placeless`: services that do not look at the place of a node.
* `page`: what a visitor gets to see of the result of rendering.

## Main results

* `agree_node`: the walks over a branch and over what it reveals agree.
* `page_render_of_reveals`: only what is not hidden counts for the page.
* `Pass.page_render_hidden`: the same for the services of a pass, with the hidden nodes cut out.
-/

namespace ContentTree.View

open Relation

variable {σ α : Type} {s : Services σ} {p : Principal} {mode : EditMode} {t t' : Tree} {n n' : Node}
  {b b' : Branch} {cs cs' : List Branch} {depth : Nat} {root : NodeId} {c : Context} {e : σ}
  {settings : Settings}

/-- Decisions, evaluations and sources do not look at the place of a node. -/
structure Services.Placeless (s : Services σ) : Prop where
  canRead : ∀ {n n'}, n.Alike n' → ∀ p, s.access.canRead p n' = s.access.canRead p n
  evaluate : ∀ {n n'}, n.Alike n' → ∀ c, s.evaluate c n' = s.evaluate c n
  sources : ∀ {n n'}, n.Alike n' → ∀ source ∈ s.sources, ∀ c, source c n' = source c n

/-! ### Nodes in another place -/

section Alike

variable (hs : s.Placeless) (h : n.Alike n')
include h

theorem showsForLocale_eq (c : Context) : showsForLocale c n' = showsForLocale c n := by
  rw [showsForLocale, showsForLocale, h.properties]

theorem isGated_eq (c : Context) : isGated c n' = isGated c n := by
  rw [isGated, isGated, h.properties]

include hs

theorem interpolated_eq (c : Context) (text : String) :
    interpolated s.evaluate c n' text = interpolated s.evaluate c n text := by
  simp only [interpolated, hs.evaluate h]

theorem firstElements_eq (c : Context) {sources : List (Source σ)}
    (hsub : ∀ source ∈ sources, source ∈ s.sources) :
    firstElements c n' sources = firstElements c n sources := by
  induction sources with
  | nil => rfl
  | cons source sources ih =>
    rw [List.forall_mem_cons] at hsub
    simp only [firstElements, hs.sources h source hsub.1, ih hsub.2]

theorem attributes_eq (attrs : List (String × String)) :
    attributes s mode n' attrs = attributes s mode n attrs := by
  induction attrs with
  | nil => rfl
  | cons a attrs ih => simp only [attributes, interpolated_eq hs h, ih]

theorem holds_eq (c : Context) (truth : Bool) (condition : Option String) :
    holds s.evaluate c n' truth condition = holds s.evaluate c n truth condition := by
  simp only [holds, hs.evaluate h]

theorem meetsConditions_eq (c : Context) :
    meetsConditions s.evaluate c n' = meetsConditions s.evaluate c n := by
  simp only [meetsConditions, h.properties, holds_eq hs h]

theorem textOf_eq (text : String) : textOf s mode n' text = textOf s mode n text := by
  simp only [textOf, interpolated_eq hs h]

theorem content_eq (hd : t'.directives n.id = t.directives n.id) (below : Nat → Walking σ Unit) :
    content s t' mode n' depth below = content s t mode n depth below := by
  have hcomment : (emitComment t' mode depth n' : Walking σ Unit) =
      emitComment t mode depth n := by
    simp only [emitComment, h.id, hd]
  refine bind_congr fun w => ?_
  rw [showsForLocale_eq h]
  simp only [meetsConditions_eq hs h, hcomment, h.id, h.kind, h.properties,
    attributes_eq hs h, textOf_eq hs h]

theorem listed_eq (write : Walking σ Unit) : listed s mode n' write = listed s mode n write := by
  simp only [listed, elements, h.properties, firstElements_eq hs h _ fun _ => id]

theorem enter_eq (write : Walking σ Unit) : enter s n' write = enter s n write := by
  simp only [enter, hs.canRead h, isGated_eq h]

/-- Of its own record, the walk over a branch looks at the content only. -/
theorem node_eq (hd : t'.directives n.id = t.directives n.id) :
    node s t' mode depth ⟨n', cs⟩ = enter s n (listed s mode n
      (content s t mode n depth fun depth => node.nodes s t' mode depth cs)) := by
  rw [node, enter_eq hs h, listed_eq hs h, content_eq hs h hd]

end Alike

/-! ### Branches -/

/-- Several branches and those of them that are left agree if the others are not entered. -/
theorem agree_nodes (hlast : s.Lasting) (hidden : NodeId → Bool)
    (hcs : cs'.map Branch.id = (cs.map Branch.id).filter fun c => !hidden c)
    (hskip : ∀ c ∈ cs, hidden c.id = true → s.access.canRead p c.node = false)
    (hnode : ∀ c ∈ cs, hidden c.id = false → ∀ c' ∈ cs', c'.id = c.id →
      Agree s p (node s t mode depth c) (node s t' mode depth c')) :
    Agree s p (node.nodes s t mode depth cs) (node.nodes s t' mode depth cs') := by
  -- Along the first list: the second one has a branch only where the first has one that is left.
  induction cs generalizing cs' with
  | nil =>
    obtain rfl : cs' = [] := List.map_eq_nil_iff.mp hcs
    exact .pure _
  | cons c cs ih =>
    rw [List.forall_mem_cons] at hskip hnode
    rw [List.map_cons] at hcs
    rw [node.nodes]
    cases hc : hidden c.id with
    | true =>
      rw [List.filter_cons_of_neg (by simp [hc])] at hcs
      rw [← pure_bind () fun _ => node.nodes s t' mode depth cs']
      obtain ⟨n, below⟩ := c
      exact (Agree.skip hlast (hskip.1 hc)).bind fun _ => ih hcs hskip.2 hnode.2
    | false =>
      rw [List.filter_cons_of_pos (by simp [hc])] at hcs
      obtain ⟨c', cs', rfl, hid, hcs⟩ := List.map_eq_cons_iff.mp hcs
      rw [node.nodes]
      exact (hnode.1 hc c' List.mem_cons_self hid).bind fun _ => ih hcs hskip.2
        fun a ha hshown a' ha' => hnode.2 a ha hshown a' (List.mem_cons_of_mem _ ha')

section Branches

variable (hplace : s.Placeless) (hlast : s.Lasting) (ht : t.WellFormed)
  (hr : t.Reveals (s.access.canRead p) root t')
include hplace hlast ht hr

/-- The walks over a branch and over what is revealed of it agree. Children that are hidden are
those that the walk over the first branch does not enter. -/
theorem agree_node (hb : b.Shows t) (hb' : b'.Shows t') (hid : b'.id = b.id)
    (hroot : t.Within b.id root) (hshown : t.isHidden (s.access.canRead p) root b.id = false) :
    Agree s p (node s t mode depth b) (node s t' mode depth b') := by
  -- The depth varies, since the children of an element are indented further.
  induction b generalizing b' depth with
  | mk n cs ih =>
    obtain ⟨n', cs'⟩ := b'
    obtain ⟨m, hm, halike⟩ := hr.alike hroot hshown hb.node?
    obtain rfl : n' = m := Option.some.inj ((hid ▸ hb'.node?).symm.trans hm)
    rw [node_eq hplace halike (hr.directives hroot hshown hb.node?), node]
    refine (((Agree.content hlast fun depth => ?_).listed hlast).enter hlast)
    -- As the node itself is not hidden, a child is if and only if it must not be read.
    have hstands : ∀ c ∈ cs, t.Under c.id n.id ∧ c.Shows t ∧
        t.isHidden (s.access.canRead p) root c.id = !s.access.canRead p c.node := by
      intro c hc
      have hmem : c.id ∈ t.children (Branch.id ⟨n, cs⟩) :=
        hb.children ▸ List.mem_map_of_mem hc
      have hunder := ht.mem_children_iff.mp hmem
      have hshows := hb.of_mem_children hc
      refine ⟨hunder, hshows, ?_⟩
      rw [ht.isHidden_child hunder hroot hshows.node?, hshown, Bool.false_or]
    refine agree_nodes hlast (t.isHidden (s.access.canRead p) root) ?_
      (fun c hc hhidden => ?_) fun c hc hvisible c' hc' hid' => ?_
    · calc cs'.map Branch.id
        _ = t'.children (Branch.id ⟨n', cs'⟩) := hb'.children.symm
        _ = t'.children (Branch.id ⟨n, cs⟩) := congrArg _ hid
        _ = (t.children (Branch.id ⟨n, cs⟩)).filter _ := hr.children hshown
        _ = (cs.map Branch.id).filter _ := congrArg _ hb.children
    · rw [(hstands c hc).2.2] at hhidden
      simpa using hhidden
    · obtain ⟨hunder, hshows, -⟩ := hstands c hc
      exact ih c hc hshows (hb'.of_mem_children hc') hid' (.head hunder hroot) hvisible

end Branches

/-! ### Pages -/

/-- What a visitor gets to see of the result of rendering. -/
def page (result : Except RenderError (Output × Context × σ)) : Except RenderError (String × Nat) :=
  result.map fun (output, _) => (output.html, output.nodesRendered)

/-- What stands on a page that a walk has written. -/
theorem page_render_of_branch (hb : t.branch? root = some b) :
    page (render s settings t root c e) =
      .ok (Html.write settings.indentHtml (walk s t b c e).lines.reverse,
        (walk s t b c e).started.length) := by
  simp [page, render, hb, Except.map, Walk.output]

/-- There is no page for a node that does not exist. -/
theorem page_render_of_missing (hn : t.node? root = none) :
    page (render s settings t root c e) = .error (.unknownNode root) := by
  have hb : t.branch? root = none := by
    rw [Tree.branch?]
    cases t.size with
    | zero => rfl
    | succ fuel => rw [Tree.branchWithin, hn, Option.map_none]
  simp [page, render, hb, Except.map]

/-- The page for a root that must not be read is empty. -/
theorem page_render_of_unreadable (hlast : s.Lasting) (ht : t.WellFormed)
    (hn : t.node? root = some n) (hread : s.access.canRead c.principal n = false) :
    page (render s settings t root c e) = .ok ("", 0) := by
  obtain ⟨⟨n, cs⟩, hb, rfl, -⟩ := ht.exists_branch hn
  -- The walk agrees with one that does nothing.
  have hw : Walk.Matches s c.principal (walk s t ⟨n, cs⟩ c e) { effects := e, context := c } :=
    (Agree.skip hlast hread (.start s c e)).2
  rw [page_render_of_branch hb, ← hw.lines, ← hw.started]
  rfl

/-- Only what is not hidden counts for the page. -/
theorem page_render_of_reveals (hplace : s.Placeless) (hlast : s.Lasting) (ht : t.WellFormed)
    (ht' : t'.WellFormed) (hr : t.Reveals (s.access.canRead c.principal) root t')
    (hn : t.node? root = some n) (hread : s.access.canRead c.principal n = true) :
    page (render s settings t' root c e) = page (render s settings t root c e) := by
  have hshown : t.isHidden (s.access.canRead c.principal) root root = false := by
    rw [ht.isHidden_root hn, hread, Bool.not_true]
  obtain ⟨n', hn', -⟩ := hr.alike .refl hshown hn
  obtain ⟨b, hb, -⟩ := ht.exists_branch hn
  obtain ⟨b', hb', -⟩ := ht'.exists_branch hn'
  obtain ⟨hid, hshows⟩ := ht.branch?_eq_some_iff.mp hb
  obtain ⟨hid', hshows'⟩ := ht'.branch?_eq_some_iff.mp hb'
  have hw : Walk.Matches s c.principal (walk s t b c e) (walk s t' b' c e) :=
    (agree_node hplace hlast ht hr hshows hshows' (hid'.trans hid.symm) (hid ▸ .refl)
      (hid ▸ hshown) (.start s c e)).2
  rw [page_render_of_branch hb, page_render_of_branch hb', hw.lines, hw.started]

/-! ### Passes -/

section Standard

variable {P : σ → Prop} {evaluate : Evaluator σ} (f : Backend) (parameter : String)

theorem keeps_standard (he : ∀ c n source, Keeps P (evaluate c n source)) :
    ∀ source ∈ Source.standard f evaluate parameter, ∀ c n, Keeps P (source c n) := by
  have hquery : ∀ kind query c n, Keeps P (Source.ofQuery f evaluate kind query c n) := by
    intro kind query c n
    unfold Source.ofQuery
    split
    · exact (Keeps.interpolated (he c n) _).bind fun _ => .pure _
    · exact .pure _
  have hfunction : ∀ c n, Keeps P (Source.function evaluate c n) := by
    intro c n
    unfold Source.function
    split
    · refine (he c n _).bind fun r => ?_
      split <;> exact .pure _
    · exact .pure _
  simp only [Source.standard, List.forall_mem_cons]
  exact ⟨fun _ _ => .pure _, hquery _ _, hfunction, hquery _ _, hquery _ _, by simp⟩

theorem standard_eq (he : ∀ c, evaluate c n' = evaluate c n) (h : n.Alike n') :
    ∀ source ∈ Source.standard f evaluate parameter, ∀ c, source c n' = source c n := by
  have hquery : ∀ kind query c, Source.ofQuery f evaluate kind query c n' =
      Source.ofQuery f evaluate kind query c n := by
    intro kind query c
    simp only [Source.ofQuery, interpolated, h.properties, he]
  have hfunction : ∀ c, Source.function evaluate c n' = Source.function evaluate c n := by
    intro c
    simp only [Source.function, h.properties, he]
  simp only [Source.standard, List.forall_mem_cons]
  exact ⟨fun _ => rfl, hquery _ _, hfunction, hquery _ _, hquery _ _, by simp⟩

end Standard

namespace Pass

theorem keeps_evaluate (c : Context) (n : Node) (source : String) :
    Keeps (·.cancelled = true) (Pass.evaluate c n source) := by
  intro p hp
  change p.count.cancelled = true
  simp [count, hp]

theorem evaluate_eq (h : n.Alike n') (c : Context) : Pass.evaluate c n' = Pass.evaluate c n := by
  funext source p
  simp only [Pass.evaluate, Context.scope, h.value]

theorem canRead_byGrants_eq (h : n.Alike n') (p : Principal) :
    Access.byGrants.canRead p n' = Access.byGrants.canRead p n := by
  cases p with
  | anonymous => simp only [Access.byGrants, h.properties]
  | user name admin =>
    cases admin <;> simp only [Access.byGrants, Access.isOwner, Access.isGranted, h.properties]

theorem lasting_services (access : Access) (b : Backend) (parameter : String) :
    (services access (Source.standard b Pass.evaluate parameter)).Lasting :=
  ⟨fun _ => rfl, keeps_evaluate, keeps_standard b parameter keeps_evaluate⟩

theorem placeless_services (b : Backend) (parameter : String) :
    (services .byGrants (Source.standard b Pass.evaluate parameter)).Placeless where
  canRead h := canRead_byGrants_eq h
  evaluate h := evaluate_eq h
  sources h := standard_eq b parameter (evaluate_eq h) h

/-- A node that cannot be read, and whatever is below it, leaves no trace on a page. The page of a
root stays the same when the hidden nodes are cut out of the tree, and also when they are removed
from it, where documents are pages. If the root itself cannot be read, the page is empty. The pass
may come with values in its cache, it may be cancelled at any evaluation, and its clock may show
anything. -/
theorem page_render_hidden (ht : t.WellFormed) (root : NodeId) (f : Fixtures) (settings : Settings)
    (c : Context) (p : Pass) :
    let s := services .byGrants
      (Source.standard f.backend Pass.evaluate settings.detailParameter)
    let keep := Access.byGrants.canRead c.principal
    let shown (t : Tree) := page (render s settings t root c p)
    (∀ n, t.node? root = some n →
      (∃ html rendered, shown t = .ok (html, rendered)) ∧
        (keep n = false → shown t = .ok ("", 0))) ∧
      ((∀ n, t.node? root = some n → keep n = true) →
        shown (t.cutHidden keep root) = shown t ∧
          (t.RecordsPages → shown (t.dropHidden keep root) = shown t)) := by
  intro s keep shown
  have hplace := placeless_services f.backend settings.detailParameter
  have hlast := lasting_services .byGrants f.backend settings.detailParameter
  refine ⟨fun n hn => ⟨?_, page_render_of_unreadable hlast ht hn⟩, fun hread => ?_⟩
  · obtain ⟨b, hb, -⟩ := ht.exists_branch hn
    exact ⟨_, _, page_render_of_branch hb⟩
  cases hn : t.node? root with
  | none =>
    -- Where there is no such root, there is none after the removal of other nodes either.
    have hcut : (t.cutHidden keep root).node? root = none := by
      rw [Tree.cutHidden, (Tree.rewritten_sever t _).node?, hn, Option.map_none]
    have hdrop : (t.dropHidden keep root).node? root = none := by
      rw [Tree.dropHidden, Tree.node?_drop, hcut, ite_self]
    have hmissing : shown t = _ := page_render_of_missing hn
    exact ⟨(page_render_of_missing hcut).trans hmissing.symm, fun _ =>
      (page_render_of_missing hdrop).trans hmissing.symm⟩
  | some n =>
    have hroot : t.isHidden keep root root = false := by
      rw [ht.isHidden_root hn, hread n hn, Bool.not_true]
    exact ⟨page_render_of_reveals hplace hlast ht ht.cutHidden ht.reveals_cutHidden hn
        (hread n hn),
      fun hpages => page_render_of_reveals hplace hlast ht ht.dropHidden
        (ht.reveals_dropHidden hpages hroot) hn (hread n hn)⟩

/-- A page with a menu for users only. -/
def staffMenu : Snapshot :=
  let everyone : Properties := { visibleToPublic := true, visibleToUsers := true }
  .mk (some 1) { kind := .page "home" 0 false, properties := everyone } none
    [.mk (some 2) { kind := .element "nav" ∅, properties := { visibleToUsers := true } } none
      [.mk (some 3) { kind := .text "menu" none, properties := everyone } none []],
    .mk (some 4) { kind := .element "p" ∅, properties := everyone } none []]

/-- Visitors see neither the menu nor the text in it, which they could read. -/
theorem page_render_hidden_staffMenu :
    let s := services .byGrants (Source.standard (Fixtures.backend {}) Pass.evaluate "nodeId")
    let t := (({} : Tree).load staffMenu).2
    let keep := Access.byGrants.canRead .anonymous
    t.isHidden keep 1 3 = true ∧
      page (render s {} (t.cutHidden keep 1) 1 {} {}) = .ok ("<!DOCTYPE html><p></p>", 2) ∧
      page (render s {} (t.dropHidden keep 1) 1 {} {}) = .ok ("<!DOCTYPE html><p></p>", 2) := by
  intro s t keep
  have ht : t.Reachable .successful := .load .empty staffMenu ⟨1, by decide⟩
  have hpage : page (render s {} t 1 {} {}) = .ok ("<!DOCTYPE html><p></p>", 2) := rfl
  have hread : ∀ n, t.node? 1 = some n → keep n = true := by
    intro n hn
    obtain rfl := Option.some.inj (hn.symm.trans rfl)
    rfl
  obtain ⟨-, hkept⟩ := page_render_hidden ht.sound.toWellFormed 1 {} {} {} {}
  obtain ⟨hcut, hdrop⟩ := hkept hread
  exact ⟨by decide, hcut.trans hpage, (hdrop ht.coherent.pages).trans hpage⟩

end Pass

end ContentTree.View
