import Rsrc.Proofs.Archive

/-!
# The order of entries

Entries are compared by code, attributes and id, one after the other, which is a total order up to
ties. So a sorted archive has its codes in order, and grouping neighbours of one code gives every code
one group.
-/

namespace Rsrc

namespace ArchiveEntry

/-- The order of two attributes. -/
def comparePair : String × String → String × String → Ordering :=
  compareLex (compareOn Prod.fst) (compareOn Prod.snd)

theorem compareAttributes_eq (l l' : List (String × String)) :
    compareAttributes l l' = List.compareLex comparePair l l' := by
  induction l generalizing l' with
  | nil => cases l' <;> rfl
  | cons p l ih =>
    cases l' with
    | nil => rfl
    | cons p' l' =>
      rw [compareAttributes, ih, ← Ordering.then_assoc, List.compareLex_cons_cons]
      rfl

/-- The order of entries as orders of their parts, one after the other. -/
theorem compare_eq : ArchiveEntry.compare =
    compareLex (compareOn (·.code))
      (compareLex (fun a b => List.compareLex comparePair a.attributes.entries b.attributes.entries)
        (compareOn fun e => e.id.toInt)) := by
  funext a b
  rw [ArchiveEntry.compare, compareAttributes_eq]
  rfl

instance : Std.TransCmp comparePair := inferInstanceAs (Std.TransCmp (compareLex _ _))

instance : Std.TransCmp fun a b : ArchiveEntry =>
    List.compareLex comparePair a.attributes.entries b.attributes.entries where
  eq_swap := Std.OrientedCmp.eq_swap
  isLE_trans := Std.TransCmp.isLE_trans

instance : Std.TransCmp ArchiveEntry.compare := by
  rw [compare_eq]
  infer_instance

theorem isLE_code {a b : ArchiveEntry} (h : (a.compare b).isLE = true) :
    (Ord.compare a.code b.code).isLE = true := by
  rw [ArchiveEntry.compare] at h
  exact (Ordering.isLE_then_iff_and.1 h).1

end ArchiveEntry

namespace Archive

theorem sorted_pairwise (a : Archive) :
    a.sorted.Pairwise fun e e' => (e.compare e').isLE = true := by
  refine List.pairwise_mergeSort (fun e e' e'' => Std.TransCmp.isLE_trans) (fun e e' => ?_) a.entries
  have swap : e'.compare e = (e.compare e').swap := Std.OrientedCmp.eq_swap
  rw [swap]
  cases e.compare e' <;> rfl

/-- The code of a group of entries. -/
def groupCode (g : List ArchiveEntry) : String := (g.head?.map (·.code)).getD ""

theorem code_eq_of_mem {es g : List ArchiveEntry}
    (h : g ∈ es.splitBy fun a b => a.code == b.code) : ∀ e ∈ g, e.code = groupCode g := by
  have chain := List.isChain_of_mem_splitBy h
  cases g with
  | nil => simp
  | cons first rest =>
    intro e member
    rcases List.mem_cons.1 member with rfl | later
    · rfl
    · exact eq_of_isChain (·.code) (fun a b same => by simpa using same) chain e later

/-- Groups of neighbours in a sorted list have increasing codes. -/
theorem groupCode_increases {es : List ArchiveEntry}
    (sorted : es.Pairwise fun e e' => (Ord.compare e.code e'.code).isLE = true) :
    ((es.splitBy fun a b => a.code == b.code).map groupCode).Pairwise
      fun c c' => Ord.compare c c' = .lt := by
  have : Trans (fun c c' : String => Ord.compare c c' = .lt) (fun c c' => Ord.compare c c' = .lt)
      fun c c' => Ord.compare c c' = .lt := ⟨Std.TransCmp.lt_trans⟩
  rw [← List.flatten_splitBy (fun a b => a.code == b.code) es, List.pairwise_flatten] at sorted
  have ends := List.isChain_getLast_head_splitBy (fun a b : ArchiveEntry => a.code == b.code) es
  rw [← List.isChain_iff_pairwise, List.isChain_map,
    List.isChain_iff_forall_rel_of_append_cons_cons]
  intro g g' before after split
  -- Neighbouring groups meet at two entries of different codes, the first of them before the other.
  have known : ∀ x ∈ [g, g'], x ∈ es.splitBy fun a b => a.code == b.code := by
    intro x member
    rw [split]
    exact List.mem_append_right _ (List.mem_append_left after member)
  obtain ⟨last, first, differ⟩ := List.isChain_iff_forall_rel_of_append_cons_cons.1 ends split
  have ordered := sorted.2
  rw [split, List.pairwise_append, List.pairwise_cons] at ordered
  have le := ordered.2.1.1 g' List.mem_cons_self (g.getLast last) (List.getLast_mem last)
    (g'.head first) (List.head_mem first)
  rw [beq_eq_false_iff_ne] at differ
  rw [code_eq_of_mem (known g (by simp)) _ (List.getLast_mem last),
    code_eq_of_mem (known g' (by simp)) _ (List.head_mem first)] at le differ
  cases order : Ord.compare (groupCode g) (groupCode g') with
  | lt => rfl
  | eq => exact absurd (Std.LawfulEqCmp.eq_of_compare order) differ
  | gt =>
    rw [order] at le
    cases le

theorem nodup_groupCode {es : List ArchiveEntry}
    (sorted : es.Pairwise fun e e' => (Ord.compare e.code e'.code).isLE = true) :
    ((es.splitBy fun a b => a.code == b.code).map groupCode).Nodup := by
  refine (groupCode_increases sorted).imp ?_
  rintro c _ less rfl
  have self : Ord.compare c c = .eq := Std.ReflCmp.compare_self
  rw [self] at less
  cases less

end Archive

end Rsrc
