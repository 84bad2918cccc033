import Mathlib.Data.List.Perm.Basic
import Orionis.Virtio.UsedRing

/-!
# Descriptors in flight

The device's steps move a descriptor along from the posted ones through the used ring; the
handler takes the oldest one out. What is in flight only changes when the driver posts or
takes.
-/

namespace Orionis.Virtio

open Orionis.Foundations

/-- The size of the driver's queues is a queue size. -/
theorem queueSize_numDesc : QueueSize numDesc := ⟨by decide, by decide, by decide⟩

namespace Lane

variable {l : Lane} {target : Option ℕ}

/-- Returning a posted descriptor keeps it in flight. -/
theorem inFlight_deviceWrite (hpending : l.pending = none) {elem : VirtqUsedElem}
    (hposted : ∃ p ∈ l.posted, p.id = elem.id) :
    (l.deviceWrite elem).inFlight.Perm l.inFlight := by
  obtain ⟨p, hp, hid⟩ := hposted
  obtain ⟨a, front, back, -, ha, hsplit, herase⟩ :=
    List.exists_of_eraseP (p := fun q : Posting => decide (q.id = elem.id)) hp (by simp [hid])
  have hid : a.id = elem.id := by simpa using ha
  have hleft : (l.deviceWrite elem).inFlight = (front ++ back).map (·.id) ++ [elem.id] ++
      (l.completed.drop l.taken.length).map (·.elem.id) := by
    rw [← herase]
    rfl
  rw [hleft, inFlight, hpending, hsplit, ← hid]
  apply List.Perm.append_right
  simp only [List.map_append, List.map_cons, Option.toList_none, List.map_nil, List.append_nil,
    List.append_assoc]
  apply List.Perm.append_left
  exact List.perm_append_comm

/-- Announcing an entry moves it within the used ring. -/
theorem inFlight_devicePublish {c : Completion} (hpending : l.pending = some c)
    (hle : l.taken.length ≤ l.completed.length) :
    (l.devicePublish c).inFlight.Perm l.inFlight := by
  have hleft : (l.devicePublish c).inFlight = l.posted.map (·.id) ++ [] ++
      ((l.completed ++ [c]).drop l.taken.length).map (·.elem.id) := rfl
  rw [hleft, inFlight, hpending, List.drop_append_of_le_length hle]
  simp only [List.map_append, List.map_cons, List.map_nil, Option.toList_some, List.append_nil,
    List.append_assoc]
  apply List.Perm.append_left
  exact List.perm_append_comm

/-- The oldest announced entry, and the rest of what is in flight. -/
theorem inFlight_take (hlt : l.taken.length < l.completed.length) :
    l.inFlight.Perm (l.completed[l.taken.length].elem.id :: (l.posted.map (·.id) ++
      l.pending.toList.map (·.elem.id) ++
        (l.completed.drop (l.taken.length + 1)).map (·.elem.id))) := by
  rw [inFlight, List.drop_eq_getElem_cons hlt, List.map_cons]
  exact List.perm_middle

/-- Where no more than a queue is in flight, the device has room for what it owns. -/
theorem room_of_inFlight (hnum : l.inFlight.length ≤ l.q.num) {elem : VirtqUsedElem}
    (hposted : ∃ p ∈ l.posted, p.id = elem.id) :
    l.completed.length < l.taken.length + l.q.num := by
  obtain ⟨p, hp, -⟩ := hposted
  have hpos := List.length_pos_of_mem hp
  simp only [inFlight, List.length_append, List.length_map, List.length_drop] at hnum
  omega

end Lane

end Orionis.Virtio
