import Mathlib.Data.List.Flatten
import Mathlib.Tactic.Common

/-!
# Lists read in turn up to a limit

A loop reads one list after the other and counts what it has read. It leaves a list when the count
has come to the limit, but not before it has read `least` of it: none where the limit is tested
before each element, one where it is tested behind it.
-/

namespace Quota

variable {α : Type*}

/-- What is read of the lists when `n` elements have been read before. -/
def read (least limit : Nat) : Nat → List (List α) → List α
  | _, [] => []
  | n, xs :: xss =>
    let ys := xs.take (max least (limit - n))
    ys ++ read least limit (n + ys.length) xss

variable {least limit n : Nat} {xs : List α} {xss yss : List (List α)}

@[simp] theorem read_nil : read least limit n ([] : List (List α)) = [] := rfl

/-- One list, and then the others with what is left. -/
theorem read_cons : read least limit n (xs :: xss) = xs.take (max least (limit - n)) ++
    read least limit (n + (xs.take (max least (limit - n))).length) xss := rfl

@[simp] theorem read_empty : read least limit n ([] :: xss) = read least limit n xss := by
  rw [read_cons, List.take_nil, List.nil_append]
  rfl

/-- Some lists, and then some more. -/
theorem read_append : read least limit n (xss ++ yss) =
    read least limit n xss ++ read least limit (n + (read least limit n xss).length) yss := by
  induction xss generalizing n with
  | nil => rfl
  | cons xs xss ih =>
    rw [List.cons_append, read_cons, read_cons, ih, List.append_assoc,
      List.length_append, Nat.add_assoc]

/-- From empty lists nothing is read. -/
theorem read_eq_nil (h : ∀ xs ∈ xss, xs = []) : read least limit n xss = [] := by
  induction xss with
  | nil => rfl
  | cons xs xss ih =>
    rw [h xs List.mem_cons_self, read_empty]
    exact ih fun ys hys => h ys (List.mem_cons_of_mem _ hys)

/-- Empty lists do not count. -/
theorem read_filter [DecidableEq α] :
    read least limit n (xss.filter (· ≠ [])) = read least limit n xss := by
  induction xss generalizing n with
  | nil => rfl
  | cons xs xss ih =>
    by_cases hxs : xs = []
    · rw [List.filter_cons_of_neg (by simpa using hxs), hxs, read_empty, ih]
    · rw [List.filter_cons_of_pos (by simpa using hxs), read_cons, read_cons, ih]

/-- The limit is kept where it is tested first. -/
theorem read_zero : read 0 limit n xss = xss.flatten.take (limit - n) := by
  induction xss generalizing n with
  | nil => exact List.take_nil.symm
  | cons xs xss ih =>
    have hrest : limit - (n + min (limit - n) xs.length) = limit - n - xs.length := by omega
    rw [read_cons, Nat.zero_max, ih, List.flatten_cons, List.take_append, List.length_take, hrest]

/-- It is also kept where the last list is reached below it. -/
theorem read_of_lt (hleast : least ≤ 1) (h : n + xss.dropLast.flatten.length < limit) :
    read least limit n xss = xss.flatten.take (limit - n) := by
  induction xss generalizing n with
  | nil => exact List.take_nil.symm
  | cons xs xss ih =>
    have hlt : n < limit := Nat.lt_of_le_of_lt (Nat.le_add_right _ _) h
    have hmax : max least (limit - n) = limit - n := by omega
    rw [read_cons, hmax, List.flatten_cons, List.take_append]
    cases xss with
    | nil => simp
    | cons ys xss =>
      rw [List.dropLast_cons_of_ne_nil (List.cons_ne_nil ys xss), List.flatten_cons,
        List.length_append] at h
      have hall : xs.take (limit - n) = xs := List.take_of_length_le (by omega)
      rw [hall, ih (by omega), Nat.sub_add_eq]

/-- Otherwise one element too many is read, at least. -/
theorem lt_length_read (hxss : ∀ xs ∈ xss, xs ≠ []) (hne : xss ≠ [])
    (h : limit ≤ n + xss.dropLast.flatten.length) : limit < n + (read 1 limit n xss).length := by
  induction xss generalizing n with
  | nil => exact absurd rfl hne
  | cons xs xss ih =>
    have hpos : 0 < xs.length := List.length_pos_iff.mpr (hxss xs List.mem_cons_self)
    have hlen : (xs.take (max 1 (limit - n))).length = min (max 1 (limit - n)) xs.length :=
      List.length_take
    rw [read_cons, List.length_append]
    cases xss with
    | nil =>
      have hn : limit ≤ n := h
      rw [read_nil, List.length_nil, hlen]
      omega
    | cons ys xss =>
      rw [List.dropLast_cons_of_ne_nil (List.cons_ne_nil ys xss), List.flatten_cons,
        List.length_append] at h
      have hrest := ih (n := n + (xs.take (max 1 (limit - n))).length)
        (fun zs hzs => hxss zs (List.mem_cons_of_mem _ hzs)) (List.cons_ne_nil ys xss) (by omega)
      omega

end Quota
