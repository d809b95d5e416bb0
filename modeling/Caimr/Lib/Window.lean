/-! Windows of a list: the items between two positions, and what writing over the
list or changing its length does to them. -/
namespace Caimr.Window

variable {α : Type}

/-- The items at positions `i`, …, `j - 1`. -/
def window (v : List α) (i j : Nat) : List α := (v.take j).drop i

/-- `v` with `xs` written over it from position `i` on. -/
def splice (v : List α) (i : Nat) (xs : List α) : List α := v.take i ++ xs ++ v.drop (i + xs.length)

/-- The first `n` items of `v`, filled up with `x` where `v` has fewer. -/
def resize (v : List α) (n : Nat) (x : α) : List α := v.take n ++ List.replicate (n - v.length) x

theorem length_window {v : List α} {i j : Nat} (hj : j ≤ v.length) : (window v i j).length = j - i := by
  simp only [window, List.length_drop, List.length_take]
  omega

theorem length_splice {v xs : List α} {i : Nat} (h : i + xs.length ≤ v.length) :
    (splice v i xs).length = v.length := by
  simp only [splice, List.length_append, List.length_take, List.length_drop]
  omega

theorem length_resize (v : List α) (n : Nat) (x : α) : (resize v n x).length = n := by
  simp only [resize, List.length_append, List.length_take, List.length_replicate]
  omega

@[simp] theorem window_self (v : List α) (i : Nat) : window v i i = [] := by
  simp [window]

theorem window_drop (v : List α) (i j n : Nat) : (window v i j).drop n = window v (i + n) j := by
  simp [window]

theorem window_take {v : List α} {i j n : Nat} (h : i + n ≤ j) :
    (window v i j).take n = window v i (i + n) := by
  simp only [window, List.take_drop, List.take_take, Nat.min_eq_left h]

theorem window_append {v : List α} {i j k : Nat} (hij : i ≤ j) (hjk : j ≤ k) :
    window v i j ++ window v j k = window v i k := by
  have h := List.take_append_drop (j - i) (window v i k)
  rw [window_take (by omega), window_drop] at h
  rw [show i + (j - i) = j by omega] at h
  exact h

/-- What is written can be read back where it was written. -/
theorem window_splice {v xs : List α} {i : Nat} (h : i ≤ v.length) :
    window (splice v i xs) i (i + xs.length) = xs := by
  have hlen : (v.take i).length = i := by simp [h]
  simp only [window, splice]
  rw [List.take_append_of_le_length (by simp [hlen]), List.take_of_length_le (by simp [hlen]),
    List.drop_append_of_le_length (by simp [hlen]), List.drop_of_length_le (by simp [hlen])]
  rfl

/-- Writing leaves everything in front of it alone. -/
theorem window_splice_before {v xs : List α} {h i j : Nat} (hj : j ≤ i) (hi : i ≤ v.length) :
    window (splice v i xs) h j = window v h j := by
  have hlen : (v.take i).length = i := by simp [hi]
  simp only [window, splice, List.append_assoc]
  rw [List.take_append_of_le_length (by omega), List.take_take, Nat.min_eq_left hj]

/-- Writing over a tail and putting the tail back is writing at its place. -/
theorem splice_tail {v xs : List α} {i : Nat} (h : i + xs.length ≤ v.length) :
    splice v i (splice (v.drop i) 0 xs) = splice v i xs := by
  have hlen : (splice (v.drop i) 0 xs).length = v.length - i := by
    rw [length_splice (by rw [List.length_drop]; omega), List.length_drop]
  have hnone : v.drop (i + (v.length - i)) = [] := List.drop_eq_nil_of_le (by omega)
  rw [splice, hlen, hnone, List.append_nil, splice, splice, List.take_zero, List.nil_append, Nat.zero_add,
    List.drop_drop, List.append_assoc]

/-- What was in front of the place, and the first of what has been written. -/
theorem take_splice_append {v xs ys : List α} {i : Nat} (h : i ≤ v.length) :
    (splice v i (xs ++ ys)).take (i + xs.length) = v.take i ++ xs := by
  have hlen : (v.take i ++ xs).length = i + xs.length := by simp [h]
  have hfront : splice v i (xs ++ ys) = v.take i ++ xs ++ (ys ++ v.drop (i + (xs ++ ys).length)) := by
    rw [splice, ← List.append_assoc, List.append_assoc]
  rw [hfront]
  exact List.take_left' hlen

theorem take_splice {v xs : List α} {i : Nat} (h : i ≤ v.length) :
    (splice v i xs).take (i + xs.length) = v.take i ++ xs := by
  have hall : (splice v i (xs ++ [])).take (i + xs.length) = v.take i ++ xs := take_splice_append h
  rwa [List.append_nil] at hall

/-- What is behind it. -/
theorem drop_splice {v xs : List α} {i n : Nat} (h : i ≤ v.length) (hn : i + xs.length ≤ n) :
    (splice v i xs).drop n = v.drop n := by
  have hlen : (v.take i).length = i := by simp [h]
  rw [splice, List.drop_append, List.drop_of_length_le (by simp [hlen]; exact hn), List.nil_append, List.drop_drop,
    List.length_append, hlen]
  congr 1
  omega

/-- Writing behind what has just been written. -/
theorem splice_behind {v xs ys : List α} {i : Nat} (h : i ≤ v.length) :
    splice (splice v i xs) (i + xs.length) ys = splice v i (xs ++ ys) := by
  rw [splice, take_splice h, drop_splice h (Nat.le_add_right ..), splice, List.length_append, Nat.add_assoc,
    List.append_assoc (v.take i)]

/-- Writing over what has just been written. -/
theorem splice_over {v xs ys : List α} {i : Nat} (h : i ≤ v.length) (hlen : ys.length = xs.length) :
    splice (splice v i xs) i ys = splice v i ys := by
  have htake : (splice v i xs).take i = v.take i := by
    have hbefore : window (splice v i xs) 0 i = window v 0 i := window_splice_before (Nat.le_refl i) h
    rwa [window, window, List.drop_zero, List.drop_zero] at hbefore
  rw [splice, htake, drop_splice h (by omega), splice]

/-- Changing the length leaves what stays inside alone. -/
theorem window_resize {v : List α} {i j n : Nat} (x : α) (hn : j ≤ n) (hj : j ≤ v.length) :
    window (resize v n x) i j = window v i j := by
  have hlen : j ≤ (v.take n).length := by
    rw [List.length_take]
    omega
  simp only [window, resize]
  rw [List.take_append_of_le_length hlen, List.take_take, Nat.min_eq_left hn]

end Caimr.Window
