import Mathlib.Order.Bounds.Defs
import Std.Data.String.ToInt
import Supercompilation.NameSupply
import Supercompilation.Proofs.Term

/-!
# Freshness of issued names

A supply knows a name if the name is reserved or has a number up to the last one. Whatever is issued
is unknown before and known afterwards, and nothing known is forgotten. These two facts carry every
statement on fresh names: `NameSupply.Issued` states them of a list of names, so that the lists of
two stages can be put together without looking at numbers.

The supply serves requests in any order. Counting up one by one from the last number ends, and it
ends at the least number whose name is not reserved.
-/

namespace Supercompilation

namespace NameSupply

/-- Names with different numbers are different. -/
theorem nameAt_inj (supply : NameSupply) {j k : Int} :
    supply.nameAt j = supply.nameAt k ↔ j = k := by
  rw [nameAt, nameAt, String.append_right_inj]
  exact Int.repr_inj

/-- The search for a free number never goes back. -/
theorem le_firstFree (supply : NameSupply) (tries : Nat) (k : Int) :
    k ≤ supply.firstFree tries k := by
  induction tries generalizing k with
  | zero => simp [firstFree]
  | succ tries ih =>
    rw [firstFree]
    split
    · have later := ih (k + 1)
      omega
    · exact Int.le_refl k

/-- If the search ends at a reserved name, all the names that it tried are reserved. -/
theorem reserved_of_firstFree_reserved (supply : NameSupply) (tries : Nat) (k : Int)
    (taken : supply.nameAt (supply.firstFree tries k) ∈ supply.reserved.toList) :
    ∀ i ≤ tries, supply.nameAt (k + i) ∈ supply.reserved.toList := by
  induction tries generalizing k with
  | zero =>
    intro i bound
    obtain rfl : i = 0 := Nat.le_zero.mp bound
    simpa [firstFree] using taken
  | succ tries ih =>
    rw [firstFree] at taken
    split at taken
    · rename_i held
      intro i bound
      cases i with
      | zero =>
        have first := (supply.reserved.contains_iff_mem_toList _).mp held
        simpa using first
      | succ i =>
        have later := ih (k + 1) taken i (Nat.le_of_succ_le_succ bound)
        rw [Int.natCast_succ, ← Int.add_assoc, Int.add_right_comm]
        exact later
    · rename_i free
      exact absurd ((supply.reserved.contains_iff_mem_toList _).mpr taken) free

/-- One try for each reserved name is enough to find a free one. -/
theorem firstFree_not_reserved (supply : NameSupply) (k : Int) :
    supply.nameAt (supply.firstFree supply.reserved.size k) ∉ supply.reserved.toList := by
  intro taken
  have reserved := supply.reserved_of_firstFree_reserved supply.reserved.size k taken
  -- One name more than there are reserved ones cannot be reserved without a repetition.
  let tried := (List.range (supply.reserved.size + 1)).map fun i => supply.nameAt (k + (i : Nat))
  have distinct : tried.Nodup := by
    apply List.Pairwise.map _ _ List.nodup_range
    intro i j differ same
    have equal := supply.nameAt_inj.mp same
    omega
  have inside : tried ⊆ supply.reserved.toList := by
    intro name member
    obtain ⟨i, bound, rfl⟩ := List.mem_map.mp member
    exact reserved i (Nat.le_of_lt_succ (List.mem_range.mp bound))
  have crowded := distinct.length_le_of_subset inside
  simp only [tried, List.length_map, List.length_range, NameSet.toList, List.length_reverse,
    NameSet.size] at crowded
  omega

/-- A name is known if it is reserved or has a number up to the last one. -/
def Knows (supply : NameSupply) (x : String) : Prop :=
  x ∈ supply.reserved.toList ∨ ∃ k ≤ supply.last, x = supply.nameAt k

/-- Reserved names are known, and so is what was known before. -/
theorem knows_reserve {supply : NameSupply} {names : List String} {x : String} :
    (supply.reserve names).Knows x ↔ supply.Knows x ∨ x ∈ names := by
  simp only [Knows, reserve, nameAt, NameSet.mem_toList_insertAll]
  exact or_right_comm

/-- An issued name is not known before. -/
theorem not_knows_fresh (supply : NameSupply) : ¬ supply.Knows supply.fresh.1 := by
  rintro (reserved | ⟨k, old, same⟩)
  · exact supply.firstFree_not_reserved (supply.last + 1) reserved
  · have later := supply.le_firstFree supply.reserved.size (supply.last + 1)
    have equal := supply.nameAt_inj.mp same
    omega

/-- An issued name is known afterwards. -/
theorem knows_fresh (supply : NameSupply) : supply.fresh.2.Knows supply.fresh.1 :=
  .inr ⟨_, Int.le_refl _, rfl⟩

/-- Issuing a name forgets none. -/
theorem Knows.fresh {supply : NameSupply} {x : String} (known : supply.Knows x) :
    supply.fresh.2.Knows x := by
  rcases known with reserved | ⟨k, old, same⟩
  · exact .inl reserved
  · have later := supply.le_firstFree supply.reserved.size (supply.last + 1)
    refine .inr ⟨k, ?_, same⟩
    change k ≤ supply.firstFree supply.reserved.size (supply.last + 1)
    omega

/-- Names are issued between two states of a supply: they are distinct, unknown before and known
afterwards, and nothing is forgotten. -/
structure Issued (before : NameSupply) (names : List String) (after : NameSupply) : Prop where
  /-- No name is issued twice. -/
  distinct : names.Nodup
  /-- No name was known. -/
  unknown : ∀ x ∈ names, ¬ before.Knows x
  /-- Every name is known now. -/
  known : ∀ x ∈ names, after.Knows x
  /-- What was known still is. -/
  grows : ∀ x, before.Knows x → after.Knows x

/-- A supply at rest has issued nothing. -/
theorem Issued.nil (supply : NameSupply) : Issued supply [] supply :=
  ⟨List.nodup_nil, by simp, by simp, fun _ known => known⟩

/-- Names that are issued in two stages are issued in one. -/
theorem Issued.append {first second third : NameSupply} {xs ys : List String}
    (early : Issued first xs second) (late : Issued second ys third) :
    Issued first (xs ++ ys) third where
  distinct := by
    rw [List.nodup_append]
    refine ⟨early.distinct, late.distinct, fun x inFirst y inSecond same => ?_⟩
    exact late.unknown y inSecond (same ▸ early.known x inFirst)
  unknown x member known := by
    rcases List.mem_append.mp member with inFirst | inSecond
    · exact early.unknown x inFirst known
    · exact late.unknown x inSecond (early.grows x known)
  known x member := by
    rcases List.mem_append.mp member with inFirst | inSecond
    · exact late.grows x (early.known x inFirst)
    · exact late.known x inSecond
  grows x known := late.grows x (early.grows x known)

/-- A single name is issued as stated. -/
theorem issued_fresh (supply : NameSupply) : Issued supply [supply.fresh.1] supply.fresh.2 where
  distinct := by simp
  unknown x member := by
    rw [List.mem_singleton.mp member]
    exact supply.not_knows_fresh
  known x member := by
    rw [List.mem_singleton.mp member]
    exact supply.knows_fresh
  grows _ known := known.fresh

/-- Several names are issued as stated. -/
theorem issued_freshMany (count : Nat) (supply : NameSupply) :
    Issued supply (freshMany count supply).1 (freshMany count supply).2 := by
  induction count generalizing supply with
  | zero => exact Issued.nil supply
  | succ count ih => exact (issued_fresh supply).append (ih supply.fresh.2)

/-- As many names are issued as are asked for. -/
@[simp]
theorem length_freshMany (count : Nat) (supply : NameSupply) :
    (freshMany count supply).1.length = count := by
  induction count generalizing supply with
  | zero => rfl
  | succ count ih => simp [freshMany, ih]

/-- A supply has moved on: it may have issued and reserved names since. -/
structure Advanced (before after : NameSupply) : Prop where
  /-- The names start as before. -/
  stem : after.stem = before.stem
  /-- The numbers do not go back. -/
  last_le : before.last ≤ after.last
  /-- No name is given free. -/
  reserved : ∀ x ∈ before.reserved.toList, x ∈ after.reserved.toList

namespace Advanced

/-- A supply at rest. -/
theorem refl (supply : NameSupply) : Advanced supply supply :=
  ⟨rfl, Int.le_refl _, fun _ member => member⟩

/-- A supply that moves on in two stages moves on. -/
theorem trans {first second third : NameSupply} (early : Advanced first second)
    (late : Advanced second third) : Advanced first third where
  stem := late.stem.trans early.stem
  last_le := Int.le_trans early.last_le late.last_le
  reserved x member := late.reserved x (early.reserved x member)

/-- Reserving names moves a supply on. -/
theorem reserve (supply : NameSupply) (names : List String) :
    Advanced supply (supply.reserve names) where
  stem := rfl
  last_le := Int.le_refl _
  reserved x member := by
    rw [NameSupply.reserve, NameSet.mem_toList_insertAll]
    exact .inl member

end Advanced

/-- A supply has gone on: its last number is another one, and it is otherwise as it was. -/
def GoesOn (before after : NameSupply) : Prop :=
  ∃ k, before.last ≤ k ∧ after = { before with last := k }

namespace GoesOn

/-- A supply at rest. -/
theorem refl (supply : NameSupply) : GoesOn supply supply :=
  ⟨supply.last, Int.le_refl _, rfl⟩

/-- A supply that goes on in two stages goes on. -/
theorem trans {first second third : NameSupply} (early : GoesOn first second)
    (late : GoesOn second third) : GoesOn first third := by
  obtain ⟨k, old, rfl⟩ := early
  obtain ⟨l, later, rfl⟩ := late
  exact ⟨l, Int.le_trans old later, rfl⟩

/-- Issuing names, a supply goes on. -/
theorem freshMany (count : Nat) (supply : NameSupply) :
    GoesOn supply (freshMany count supply).2 := by
  induction count generalizing supply with
  | zero => exact refl supply
  | succ count ih =>
    have later := supply.le_firstFree supply.reserved.size (supply.last + 1)
    have once : GoesOn supply supply.fresh.2 :=
      ⟨_, Int.le_trans (Int.le_add_one (Int.le_refl _)) later, rfl⟩
    exact once.trans (ih supply.fresh.2)

/-- A supply that has gone on has moved on. -/
theorem advanced {before after : NameSupply} (goesOn : GoesOn before after) :
    Advanced before after := by
  obtain ⟨k, old, rfl⟩ := goesOn
  exact ⟨rfl, old, fun _ member => member⟩

/-- Names that are issued while a supply goes on are made of its stem and a number. -/
theorem exists_nameAt {before after : NameSupply} (goesOn : GoesOn before after)
    {names : List String} (issued : Issued before names after) {x : String} (member : x ∈ names) :
    ∃ k, x = before.nameAt k := by
  obtain ⟨last, -, rfl⟩ := goesOn
  rcases issued.known x member with reserved | ⟨k, -, same⟩
  · exact absurd (.inl reserved) (issued.unknown x member)
  · exact ⟨k, same⟩

end GoesOn

/-- Counting up one by one from a number: names that are reserved are passed over, and the first
that is not ends the count. -/
inductive Counts (supply : NameSupply) : Int → Int → Prop where
  /-- The name of the number is free. -/
  | stop {k : Int} (free : supply.nameAt k ∉ supply.reserved.toList) : Counts supply k k
  /-- The name of the number is reserved. -/
  | next {k l : Int} (taken : supply.nameAt k ∈ supply.reserved.toList)
      (rest : Counts supply (k + 1) l) : Counts supply k l

/-- A count ends at the least number whose name is free. -/
theorem Counts.isLeast {supply : NameSupply} {k l : Int} (count : supply.Counts k l) :
    IsLeast {m | k ≤ m ∧ supply.nameAt m ∉ supply.reserved.toList} l := by
  induction count with
  | stop free => exact ⟨⟨Int.le_refl _, free⟩, fun m candidate => candidate.1⟩
  | @next k l taken rest ih =>
    obtain ⟨⟨above, free⟩, least⟩ := ih
    refine ⟨⟨by omega, free⟩, fun m candidate => least ⟨?_, candidate.2⟩⟩
    have differs : m ≠ k := fun same => candidate.2 (same ▸ taken)
    have bound := candidate.1
    omega

/-- A search that ends at a free name has counted up to it. -/
theorem counts_firstFree {supply : NameSupply} {tries : Nat} {k : Int}
    (free : supply.nameAt (supply.firstFree tries k) ∉ supply.reserved.toList) :
    supply.Counts k (supply.firstFree tries k) := by
  induction tries generalizing k with
  | zero => exact .stop free
  | succ tries ih =>
    rw [firstFree] at free ⊢
    split at free
    · rename_i held
      rw [if_pos held]
      exact .next ((supply.reserved.contains_iff_mem_toList _).mp held) (ih free)
    · rename_i unheld
      rw [if_neg unheld]
      exact .stop free

/-- What a supply is asked to do. -/
inductive Request where
  /-- Never issue any of the names. -/
  | reserve (names : List String)
  /-- Issue a name. -/
  | fresh

/-- The supply after a request. -/
def serve (supply : NameSupply) : Request → NameSupply
  | .reserve names => supply.reserve names
  | .fresh => supply.fresh.2

/-- The supply after some requests. -/
def after (supply : NameSupply) (requests : List Request) : NameSupply :=
  requests.foldl serve supply

/-- The names that are issued while some requests are served. -/
def issuedBy : NameSupply → List Request → List String
  | _, [] => []
  | supply, .reserve names :: requests => issuedBy (supply.reserve names) requests
  | supply, .fresh :: requests => supply.fresh.1 :: issuedBy supply.fresh.2 requests

/-- Requests that are served one after another. -/
theorem issuedBy_append (supply : NameSupply) (early late : List Request) :
    supply.issuedBy (early ++ late) =
      supply.issuedBy early ++ (supply.after early).issuedBy late := by
  induction early generalizing supply with
  | nil => rfl
  | cons request early ih =>
    cases request with
    | reserve names => exact ih (supply.reserve names)
    | fresh => exact congrArg (supply.fresh.1 :: ·) (ih supply.fresh.2)

/-- Reserving names issues none. -/
theorem issued_reserve (supply : NameSupply) (names : List String) :
    Issued supply [] (supply.reserve names) where
  distinct := List.nodup_nil
  unknown := by simp
  known := by simp
  grows _ known := knows_reserve.mpr (.inl known)

/-- Whatever is asked for, the names are issued as stated. -/
theorem issued_issuedBy (supply : NameSupply) (requests : List Request) :
    Issued supply (supply.issuedBy requests) (supply.after requests) := by
  induction requests generalizing supply with
  | nil => exact Issued.nil supply
  | cons request requests ih =>
    cases request with
    | reserve names => exact (issued_reserve supply names).append (ih (supply.reserve names))
    | fresh => exact (issued_fresh supply).append (ih supply.fresh.2)

/-- The stem stays, whatever is asked for. -/
theorem stem_after (supply : NameSupply) (requests : List Request) :
    (supply.after requests).stem = supply.stem := by
  induction requests generalizing supply with
  | nil => rfl
  | cons request requests ih => cases request <;> exact ih _

/-- What is reserved after some requests was so before, or one of them reserved it. -/
theorem mem_reserved_after {supply : NameSupply} {requests : List Request} {x : String} :
    x ∈ (supply.after requests).reserved.toList ↔
      x ∈ supply.reserved.toList ∨ ∃ names, .reserve names ∈ requests ∧ x ∈ names := by
  induction requests generalizing supply with
  | nil => simp [after]
  | cons request requests ih =>
    rw [after, List.foldl_cons, ← after, ih]
    cases request with
    | reserve names =>
      simp [serve, reserve, NameSet.mem_toList_insertAll, or_and_right, exists_or, or_assoc]
    | fresh => simp [serve, fresh]

/-- Whatever is asked for, no name is issued twice. Every request for a name is served: counting up
from the last number ends, it ends at the least later number whose name is not reserved then, the
name of this number is the one issued, and the number is the last one afterwards. Reserved are the
names that were so at first or that an earlier request reserved. -/
theorem issues_least (supply : NameSupply) :
    (∀ requests, (supply.issuedBy requests).Nodup) ∧
    ∀ early late, ∃ k,
      (supply.after early).Counts ((supply.after early).last + 1) k ∧
      IsLeast {m | (supply.after early).last < m ∧
        supply.nameAt m ∉ (supply.after early).reserved.toList} k ∧
      supply.issuedBy (early ++ .fresh :: late) = supply.issuedBy early ++
        supply.nameAt k :: (supply.after (early ++ [.fresh])).issuedBy late ∧
      (supply.after (early ++ [.fresh])).last = k ∧
      ∀ x, x ∈ (supply.after early).reserved.toList ↔
        x ∈ supply.reserved.toList ∨ ∃ names, .reserve names ∈ early ∧ x ∈ names := by
  refine ⟨fun requests => (supply.issued_issuedBy requests).distinct, fun early late => ?_⟩
  let before := supply.after early
  have served : supply.after (early ++ [.fresh]) = before.fresh.2 := by
    rw [after, List.foldl_append]
    rfl
  have named : ∀ m, before.nameAt m = supply.nameAt m := fun m => by
    rw [nameAt, nameAt, stem_after]
  have count : before.Counts (before.last + 1) _ :=
    counts_firstFree (before.firstFree_not_reserved (before.last + 1))
  refine ⟨_, count, ?_, ?_, congrArg NameSupply.last served, fun x => mem_reserved_after⟩
  · simpa only [named, Int.add_one_le_iff] using count.isLeast
  · rw [issuedBy_append, served, ← named]
    rfl

/-- A counter that starts below zero, and a name that is reserved between two requests. -/
example : NameSupply.issuedBy ⟨"v_", -2, .empty⟩
    [.fresh, .reserve ["v_0", "v_2"], .fresh, .fresh] = ["v_-1", "v_1", "v_3"] := by
  rfl

end NameSupply

end Supercompilation
