import Mathlib.Data.List.Basic
import Variability.Inclusion
import Variability.Proofs.Text.FileLines

/-
  Variants read back from the bytes that identify them.

  The bytes hold texts one behind the other, each ended by a zero
  byte. The forced includes are ended by an empty text, so they
  can be told from the definitions if none of them is empty.

  Main declarations:
    * `Inclusion.HasNoZero`
    * `Inclusion.NamesForced`
    * `Inclusion.identity_inj`
-/

namespace Variability

/- What stands before the first mark and behind it can be told. -/
theorem append_mark_inj
    {α : Type}
    {mark : α}
    {xs xs' ys ys' : List α}
    (hxs : mark ∉ xs)
    (hxs' : mark ∉ xs')
    (hEq : xs ++ mark :: ys = xs' ++ mark :: ys') :
    xs = xs' ∧ ys = ys' := by
  induction xs generalizing xs' with
  | nil =>
      cases xs' with
      | nil => exact ⟨rfl, (List.cons.inj hEq).2⟩
      | cons x xs' =>
          cases (List.cons.inj hEq).1
          exact absurd List.mem_cons_self hxs'
  | cons x xs ih =>
      cases xs' with
      | nil =>
          cases (List.cons.inj hEq).1
          exact absurd List.mem_cons_self hxs
      | cons x' xs' =>
          rcases List.cons.inj hEq with ⟨rfl, hRest⟩
          rcases ih (fun h => hxs (List.mem_cons_of_mem x h))
              (fun h => hxs' (List.mem_cons_of_mem x h)) hRest
            with ⟨rfl, hBehind⟩
          exact ⟨rfl, hBehind⟩

------------------------------------------------------------
-- Zero Bytes in Encoded Texts
------------------------------------------------------------

namespace Utf8

variable {s t : String}

/-
  A byte of an encoded character is the character's code, or it
  is at least 128.
-/
theorem eq_or_le_of_mem_utf8EncodeChar
    {b : UInt8}
    {c : Char}
    (hMem : b ∈ String.utf8EncodeChar c) :
    b.toNat = c.val.toNat ∨ 128 ≤ b.toNat := by
  unfold String.utf8EncodeChar at hMem
  generalize c.val.toNat = n at hMem ⊢
  dsimp only at hMem
  split at hMem
  · left
    rw [List.mem_singleton.mp hMem,
      UInt8.toNat_ofNat_of_lt' (by change n < 256; omega)]
  · right
    split_ifs at hMem <;>
      simp only [List.mem_cons, List.not_mem_nil, or_false]
        at hMem <;>
      rcases hMem with rfl | rfl | rfl | rfl <;>
      rw [UInt8.toNat_ofNat'] <;>
      omega

theorem zero_not_mem_encode
    (hZero : '\x00' ∉ s.toList) :
    0 ∉ encode s := by
  rw [encode_eq]
  intro hMem
  rcases List.mem_flatMap.mp hMem with ⟨c, hc, hByte⟩
  rcases eq_or_le_of_mem_utf8EncodeChar hByte with hEq | hLe
  · apply hZero
    have hCode : c = '\x00' := by
      rw [Char.ext_iff, ← UInt32.toNat_inj]
      exact hEq.symm
    exact hCode ▸ hc
  · simp at hLe

/- A text is known by its bytes. -/
theorem encode_inj
    (hEq : encode s = encode t) :
    s = t := by
  rw [encode, encode, String.toUTF8_eq_toByteArray,
    String.toUTF8_eq_toByteArray, ByteArray.toList,
    ByteArray.toList, toList_loop, toList_loop,
    List.reverse_nil, List.nil_append, List.nil_append,
    List.drop_zero, List.drop_zero, Array.toList_inj] at hEq
  exact String.toByteArray_inj.mp (ByteArray.ext hEq)

end Utf8

namespace Inclusion

variable {i j : Inclusion}

------------------------------------------------------------
-- Terminated Texts
------------------------------------------------------------

/- No text of an inclusion has the character that ends texts. -/
structure HasNoZero (i : Inclusion) : Prop where
  file : '\x00' ∉ i.file.text.toList
  forced : ∀ p ∈ i.forced, '\x00' ∉ p.text.toList
  defines :
    ∀ define ∈ i.defines,
      '\x00' ∉ define.1.toList ∧ '\x00' ∉ define.2.toList

/- No forced include is the empty path. -/
def NamesForced (i : Inclusion) : Prop :=
  ∀ p ∈ i.forced, p.text ≠ ""

theorem terminated_eq
    (s : String) :
    terminated s = Utf8.encode s ++ [0] :=
  rfl

/- A terminated text can be told from what is behind it. -/
theorem terminated_append_inj
    {s t : String}
    {xs ys : List UInt8}
    (hs : '\x00' ∉ s.toList)
    (ht : '\x00' ∉ t.toList)
    (hEq : terminated s ++ xs = terminated t ++ ys) :
    s = t ∧ xs = ys := by
  rw [terminated_eq, terminated_eq, List.append_assoc,
    List.append_assoc, List.singleton_append,
    List.singleton_append] at hEq
  rcases append_mark_inj (Utf8.zero_not_mem_encode hs)
      (Utf8.zero_not_mem_encode ht) hEq with
    ⟨hText, hBehind⟩
  exact ⟨Utf8.encode_inj hText, hBehind⟩

/- A text that is not empty does not begin with a zero byte. -/
theorem terminated_ne_zero_cons
    {s : String}
    {xs ys : List UInt8}
    (hs : '\x00' ∉ s.toList)
    (hText : s ≠ "") :
    0 :: xs ≠ terminated s ++ ys := by
  intro hEq
  have hEmpty : terminated "" ++ xs = terminated s ++ ys := by
    rw [← hEq, terminated_eq, Utf8.encode_eq]
    rfl
  exact
    hText (terminated_append_inj (by simp) hs hEmpty).1.symm

/-
  Texts that are not empty, up to an empty one, can be told from
  what is behind them.
-/
theorem flatMap_terminated_inj
    {ps qs : List Path}
    {xs ys : List UInt8}
    (hps : ∀ p ∈ ps, '\x00' ∉ p.text.toList ∧ p.text ≠ "")
    (hqs : ∀ q ∈ qs, '\x00' ∉ q.text.toList ∧ q.text ≠ "")
    (hEq :
      ps.flatMap (fun p => terminated p.text) ++ 0 :: xs =
        qs.flatMap (fun q => terminated q.text) ++ 0 :: ys) :
    ps = qs ∧ xs = ys := by
  induction ps generalizing qs with
  | nil =>
      cases qs with
      | nil => exact ⟨rfl, (List.cons.inj hEq).2⟩
      | cons q qs =>
          have hq := hqs q List.mem_cons_self
          rw [List.flatMap_cons, List.append_assoc] at hEq
          exact absurd hEq (terminated_ne_zero_cons hq.1 hq.2)
  | cons p ps ih =>
      have hp := hps p List.mem_cons_self
      rw [List.flatMap_cons, List.append_assoc] at hEq
      cases qs with
      | nil =>
          exact
            absurd hEq.symm
              (terminated_ne_zero_cons hp.1 hp.2)
      | cons q qs =>
          have hq := hqs q List.mem_cons_self
          rw [List.flatMap_cons, List.append_assoc] at hEq
          rcases terminated_append_inj hp.1 hq.1 hEq with
            ⟨hText, hRest⟩
          rcases ih
              (fun r hr => hps r (List.mem_cons_of_mem p hr))
              (fun r hr => hqs r (List.mem_cons_of_mem q hr))
              hRest with
            ⟨rfl, hBehind⟩
          cases p
          cases q
          cases hText
          exact ⟨rfl, hBehind⟩

/- Names and values take turns to the end. -/
theorem flatMap_define_inj
    {ds es : List (String × String)}
    (hds :
      ∀ d ∈ ds, '\x00' ∉ d.1.toList ∧ '\x00' ∉ d.2.toList)
    (hes :
      ∀ e ∈ es, '\x00' ∉ e.1.toList ∧ '\x00' ∉ e.2.toList)
    (hEq :
      ds.flatMap
          (fun (name, value) =>
            terminated name ++ terminated value) =
        es.flatMap
          (fun (name, value) =>
            terminated name ++ terminated value)) :
    ds = es := by
  induction ds generalizing es with
  | nil =>
      cases es with
      | nil => rfl
      | cons e es => simp [terminated] at hEq
  | cons d ds ih =>
      cases es with
      | nil => simp [terminated] at hEq
      | cons e es =>
          have hd := hds d List.mem_cons_self
          have he := hes e List.mem_cons_self
          rcases d with ⟨name, value⟩
          rcases e with ⟨name', value'⟩
          rw [List.flatMap_cons, List.flatMap_cons] at hEq
          dsimp only at hEq
          rw [List.append_assoc, List.append_assoc] at hEq
          rcases terminated_append_inj hd.1 he.1 hEq with
            ⟨rfl, hBehind⟩
          rcases terminated_append_inj hd.2 he.2 hBehind with
            ⟨rfl, hRest⟩
          rw [ih
            (fun d' hd' => hds d' (List.mem_cons_of_mem _ hd'))
            (fun e' he' => hes e' (List.mem_cons_of_mem _ he'))
            hRest]

------------------------------------------------------------
-- Whole Variants
------------------------------------------------------------

/- A variant is known by the bytes that identify it. -/
theorem identity_inj
    (hi : i.HasNoZero)
    (hj : j.HasNoZero)
    (hiForced : i.NamesForced)
    (hjForced : j.NamesForced)
    (hEq : i.identity = j.identity) :
    i.file = j.file ∧ i.forced = j.forced ∧
      i.defines = j.defines := by
  rw [identity, identity, List.append_assoc,
    List.append_assoc] at hEq
  rcases terminated_append_inj hi.file hj.file hEq with
    ⟨hFile, hBehind⟩
  rcases flatMap_terminated_inj
      (fun p hp => ⟨hi.forced p hp, hiForced p hp⟩)
      (fun q hq => ⟨hj.forced q hq, hjForced q hq⟩)
      hBehind with
    ⟨hForced, hDefines⟩
  have hPath : i.file = j.file := by
    cases hText : i.file
    cases hText' : j.file
    rw [hText, hText'] at hFile
    cases hFile
    rfl
  exact
    ⟨hPath, hForced,
      flatMap_define_inj hi.defines hj.defines hDefines⟩

end Inclusion

end Variability
