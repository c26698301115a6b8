import ContentTree.Node.Basic

/-!
# Kinds and contents

Nodes never change their kind, whatever else becomes of their content. What depends on the kind
alone is therefore the same for all contents a node ever has.

## Main results

* `Kind.isPage_eq_of_same` and others: nodes of the same kind have the same standing.
* `Content.same_of_comparable_eq`: contents that compare equal are of the same kind.
-/

namespace ContentTree

namespace Kind

variable {k k' k'' l l' : Kind}

theorem same_refl (k : Kind) : k.same k = true := by
  cases k <;> rfl

theorem same_trans (h : k.same k' = true) (h' : k'.same k'' = true) : k.same k'' = true := by
  cases k <;> cases k' <;> cases k'' <;> simp_all [same]

theorem isPage_eq_of_same (h : k.same k' = true) : k'.isPage = k.isPage := by
  cases k <;> cases k' <;> simp_all [same, isPage]

theorem isText_eq_of_same (h : k.same k' = true) : k'.isText = k.isText := by
  cases k <;> cases k' <;> simp_all [same, isText]

theorem same_withVersion (h : k.same k' = true) (version : Nat) :
    k.same (k'.withVersion version) = true := by
  cases k <;> cases k' <;> simp_all [same, withVersion]

theorem isFragment_eq_of_same (h : k.same k' = true) : k'.isFragment = k.isFragment := by
  cases k <;> cases k' <;> simp_all [same, isFragment]

theorem same_symm (h : k.same k' = true) : k'.same k = true := by
  cases k <;> cases k' <;> simp_all [same]

theorem same_congr (h : k.same k' = true) (h' : l.same l' = true) : k.same l = k'.same l' :=
  Bool.eq_iff_iff.mpr ⟨fun hsame => same_trans (same_symm h) (same_trans hsame h'),
    fun hsame => same_trans h (same_trans hsame (same_symm h'))⟩

@[simp]
theorem withVersion_withVersion (k : Kind) (version version' : Nat) :
    (k.withVersion version).withVersion version' = k.withVersion version' := by
  cases k <;> rfl

theorem version?_withVersion (h : k.isPage = true) (version : Nat) :
    (k.withVersion version).version? = some version := by
  cases k <;> simp_all [isPage, withVersion, version?]

theorem isPage_of_version? {version : Nat} (h : k.version? = some version) : k.isPage = true := by
  cases k <;> simp_all [isPage, version?]

theorem same_of_withVersion_eq (h : k.withVersion 0 = k'.withVersion 0) : k.same k' = true := by
  cases k <;> cases k' <;> simp_all [withVersion, same]

end Kind

theorem Content.same_of_comparable_eq {c c' : Content} (h : c.comparable = c'.comparable) :
    c.kind.same c'.kind = true :=
  Kind.same_of_withVersion_eq (congrArg Content.kind h)

end ContentTree
