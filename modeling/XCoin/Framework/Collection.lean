import Mathlib.Data.List.Basic
import Mathlib.Data.List.Nodup

/-! # Collections of keyed documents

    A collection holds documents in insertion order, no two with one key.
    `insertMany` inserts documents one after the other and stops at the first
    one whose key is taken; what was inserted before it stays.
-/

namespace Collection

variable {κ δ : Type}

/-- A document and its key. -/
structure Document (κ δ : Type) where
  id   : κ
  body : δ
deriving DecidableEq, Repr

/-- The keys of some documents. -/
def keys (documents : List (Document κ δ)) : List κ := documents.map Document.id

/-- The collection after an insertion. -/
def insertMany [DecidableEq κ] (stored : List (Document κ δ)) :
    List (Document κ δ) → List (Document κ δ)
  | [] => stored
  | d :: ds => if d.id ∈ keys stored then stored else insertMany (stored ++ [d]) ds

variable [DecidableEq κ] {stored documents : List (Document κ δ)}

/-- Documents with new keys are all inserted. -/
theorem insertMany_eq_append (h : (keys (stored ++ documents)).Nodup) :
    insertMany stored documents = stored ++ documents := by
  induction documents generalizing stored with
  | nil => simp [insertMany]
  | cons d ds ih =>
    have hassoc : stored ++ d :: ds = (stored ++ [d]) ++ ds := by simp
    have hfresh : d.id ∉ keys stored := by
      intro hmem
      rw [keys, List.map_append, List.nodup_append'] at h
      exact h.2.2 hmem (by simp)
    rw [insertMany, if_neg hfresh, hassoc]
    exact ih (hassoc ▸ h)

/-- Into an empty collection everything is inserted. -/
theorem insertMany_nil (h : (keys documents).Nodup) : insertMany [] documents = documents :=
  insertMany_eq_append h

/-- If the first key is taken, nothing is inserted. -/
theorem insertMany_of_mem {d : Document κ δ} {ds : List (Document κ δ)}
    (h : d.id ∈ keys stored) : insertMany stored (d :: ds) = stored := by
  rw [insertMany, if_pos h]

end Collection
