import IgaArchive.Store.Files

/-!
File contents as byte strings, and the nodes of a store after one of them is put in place. Reading and
writing a file are told by its bytes alone.
-/

namespace IgaArchive.Contents

@[simp] theorem toBytes_ofBytes (bytes : Bytes) : (ofBytes bytes).toBytes = bytes := by
  simp [ofBytes, toBytes, Bytes.ofByteArray, Bytes.toByteArray]

@[simp] theorem ofBytes_toBytes (contents : Contents) : ofBytes contents.toBytes = contents := by
  simp [ofBytes, toBytes, Bytes.ofByteArray, Bytes.toByteArray]

theorem toBytes_inj (left right : Contents) (same : left.toBytes = right.toBytes) : left = right := by
  rw [← ofBytes_toBytes left, same, ofBytes_toBytes]

@[simp] theorem empty_eq_ofBytes : ({} : Contents) = ofBytes [] := by
  apply toBytes_inj
  rw [toBytes_ofBytes]
  rfl

@[simp] theorem length_toBytes (contents : Contents) : contents.toBytes.length = contents.size := by
  simp [toBytes, size, Bytes.ofByteArray]

theorem slice_eq (contents : Contents) (position length : Nat) :
    contents.slice position length = (contents.toBytes.drop position).take length := by
  simp only [slice, toBytes, Bytes.ofByteArray, ByteArray.data_extract, Array.toList_extract,
    List.extract_eq_take_drop]
  rw [Nat.add_sub_cancel_left]

theorem overwrite_end (contents : Contents) (bytes : Bytes) :
    contents.overwrite contents.size bytes = ofBytes (contents.toBytes ++ bytes) := by
  apply toBytes_inj
  have whole : contents.packed.extract 0 contents.size = contents.packed := by
    simp [size]
  have behind : contents.packed.size ≤ contents.size + bytes.length := Nat.le_add_right contents.size _
  have nothing : contents.size - contents.packed.size = 0 := by simp [size]
  rw [toBytes_ofBytes]
  simp [overwrite, toBytes, Bytes.ofByteArray, resize, Bytes.toByteArray, whole, behind, nothing]

end IgaArchive.Contents

namespace IgaArchive.Store

theorem lookup_map_put (nodes : List (Location × Node)) (location other : Location) (node : Node) :
    (nodes.map fun (at_, old) => if at_ = location then (at_, node) else (at_, old)).lookup other =
      if other = location then (nodes.lookup other).map fun _ => node else nodes.lookup other := by
  induction nodes with
  | nil => simp
  | cons head tail ih =>
      obtain ⟨at_, old⟩ := head
      rw [List.map_cons]
      by_cases here : at_ = location
      · simp only [here, if_true, List.lookup_cons]
        by_cases wanted : other = location
        · simp [wanted]
        · simp [wanted, beq_false_of_ne wanted, ih]
      · simp only [here, if_false, List.lookup_cons]
        by_cases found : other = at_
        · subst found
          simp [here]
        · simp [beq_false_of_ne found, ih]

theorem node?_put (store : Store) (location other : Location) (node : Node) (below : location ≠ []) :
    (store.put location node).node? other =
      if other = location then some node else store.node? other := by
  by_cases root : other = []
  · subst root
    simp [node?, Ne.symm below]
  · rw [node?, if_neg root, put, node?, if_neg root]
    cases present : store.nodes.lookup location with
    | none =>
        simp only [Option.isSome_none, Bool.false_eq_true, if_false, List.lookup_append]
        by_cases here : other = location
        · subst here
          simp [present]
        · simp [here, List.lookup_cons, beq_false_of_ne here]
    | some old =>
        simp only [Option.isSome_some, if_true, lookup_map_put]
        by_cases here : other = location
        · subst here
          simp [present]
        · simp [here]

@[simp] theorem workingDirectory_put (store : Store) (location : Location) (node : Node) :
    (store.put location node).workingDirectory = store.workingDirectory := by
  rw [put]
  split <;> rfl

@[simp] theorem terms_put (store : Store) (location : Location) (node : Node) :
    (store.put location node).terms = store.terms := by
  rw [put]
  split <;> rfl

theorem put_put (store : Store) (location : Location) (first second : Node) :
    (store.put location first).put location second = store.put location second := by
  cases present : store.nodes.lookup location with
  | none =>
      have absent : ∀ entry ∈ store.nodes, entry.1 ≠ location := by
        intro entry member same
        simpa [same] using List.lookup_eq_none_iff.mp present entry member
      have kept : store.nodes.map (fun (at_, old) =>
          if at_ = location then (at_, second) else (at_, old)) = store.nodes := by
        refine (List.map_congr_left ?_).trans (List.map_id _)
        intro entry member
        simp [absent entry member]
      simp [put, present, kept]
  | some old =>
      have found : (store.put location first).nodes.lookup location = some first := by
        rw [put, if_pos (by simp [present])]
        simp [lookup_map_put, present]
      rw [put, if_pos (by simp [found]), put, if_pos (by simp [present]), put, if_pos (by simp [present])]
      simp only [List.map_map, mk.injEq, and_true]
      apply List.map_congr_left
      intro entry member
      by_cases here : entry.1 = location <;> simp [here]

theorem node?_below (store : Store) (location : Location)
    (vacant : ∀ entry ∈ store.nodes, location <+: entry.1 → entry.1 = location) (below : Location)
    (down : below ≠ []) : store.node? (location ++ below) = none := by
  rw [node?, if_neg (by simp [down]), List.lookup_eq_none_iff]
  intro entry inside
  rw [bne_iff_ne]
  intro same
  have here := vacant entry inside ⟨below, same⟩
  rw [here] at same
  exact down (List.append_right_eq_self.mp same)

end IgaArchive.Store
