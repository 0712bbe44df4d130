import ProcessNet.Proofs.Net.WellFormed

/-!
Markings as entries and as functions. The marking of a well-formed net lists its places in their
order, so two markings over the same places are equal as soon as their counts are, and setting a
marking that lists every place replaces the whole function.
-/

namespace ProcessNet

namespace Marking

variable {m n : Marking} {p : PlaceId} {c : ℕ}

theorem get?_counts (h : p ∈ m.counts.keys) : m.counts.get? p = some (m.tokens p) := by
  obtain ⟨c, hc⟩ := OrderedMap.mem_keys.1 h
  rw [tokens, hc, Option.getD_some]

theorem tokens_of_not_mem (h : p ∉ m.counts.keys) : m.tokens p = 0 := by
  rw [tokens, OrderedMap.get?_eq_none.2 h, Option.getD_none]

theorem beq_iff (keys : m.counts.keys = n.counts.keys) :
    (m == n) = true ↔ m.tokens = n.tokens := by
  have size : m.size = n.size := by
    rw [Marking.size, Marking.size, ← OrderedMap.length_keys, keys, OrderedMap.length_keys]
  have unfolded : (m == n) = true ↔ ∀ e ∈ m.entries, n.counts.get? e.1 = some e.2 := by
    show (m.size == n.size && m.entries.all _) = true ↔ _
    simp [size, beq_iff_eq]
  rw [unfolded]
  constructor
  · intro h
    funext p
    by_cases hp : p ∈ m.counts.keys
    · have entry := OrderedMap.get?_eq_some.1 (get?_counts hp)
      have := (get?_counts (keys ▸ hp)).symm.trans (h _ entry)
      exact (Option.some.inj this).symm
    · rw [tokens_of_not_mem hp, tokens_of_not_mem (keys ▸ hp)]
  · intro h e he
    have hm := OrderedMap.get?_eq_some.2 he
    have hp := OrderedMap.mem_keys_of_get? hm
    have count : m.tokens e.1 = e.2 := by rw [tokens, hm, Option.getD_some]
    rw [get?_counts (keys ▸ hp), ← h, count]

end Marking

namespace Net

variable {net : Net} (wf : net.WellFormed)

include wf

theorem counts_marking : net.marking.counts = net.places.mapValues fun _ x => x.tokens := by
  have entries : net.places.values.map (fun x => (x.id, x.tokens)) =
      (net.places.mapValues fun _ x => x.tokens).entries := by
    rw [OrderedMap.values, OrderedMap.mapValues, List.map_map]
    refine List.map_congr_left fun e he => ?_
    rw [Function.comp_apply, wf.place_id (OrderedMap.get?_eq_some.2 he)]
  refine OrderedMap.ext ?_
  rw [marking, Marking.ofList, entries, OrderedMap.entries_ofList (OrderedMap.nodup_keys _)]

theorem keys_marking : net.marking.counts.keys = net.places.keys := by
  rw [counts_marking wf, OrderedMap.keys_mapValues]

theorem tokens_marking : net.marking.tokens = net.tokens := by
  funext p
  rw [Marking.tokens, counts_marking wf, OrderedMap.get?_mapValues, tokens, place?]
  cases net.places.get? p <;> rfl

omit wf in
theorem run_setMarking_of_keys {m : Marking} (keys : m.counts.keys = net.places.keys) :
    (Edit.setMarking m).run net = .ok () (net.withTokens m.tokens) := by
  have known : m.entries.find? (fun e => ¬e.1 ∈ net.places.keys) = none := by
    refine List.find?_eq_none.2 fun e he => ?_
    have : e.1 ∈ m.counts.keys := List.mem_map_of_mem he
    simpa using keys ▸ this
  rw [Edit.run_setMarking, known, Option.elim_none, Edit.setMarking_eq_withTokens]
  refine congrArg (EStateM.Result.ok ()) (withTokens_congr fun p hp => ?_)
  rw [Marking.get?_counts (keys ▸ hp), Option.getD_some]

end Net

end ProcessNet
