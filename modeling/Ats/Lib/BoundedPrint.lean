import Mathlib.Algebra.Group.Int.Defs
import Mathlib.Algebra.Group.Nat.Defs
import Mathlib.Data.List.Basic

/-!
# BoundedPrint: text written in pieces into a bounded buffer

The idiom is `ret = snprintf(p, n, ..); p += ret; n -= ret;`, with `ret` an
`int` of 32 bits and `n` a `size_t` of 64, and with functions that print in
this way, return the difference of two sizes as an `int`, and are called in
this way. The difference may wrap, and a text that was cut moves `p` by its
whole length.
-/

namespace BoundedPrint

/-! ## Calls -/

/-- A call: where it may write, the size it was given, and how many bytes it
wrote itself. -/
structure Write where
  addr : Int
  size : Nat
  length : Nat

/-- Memory, and the calls so far. -/
structure Store where
  byte : Int → UInt8
  writes : List Write

/-- Memory with the bytes `s` at `addr`. -/
def poke (byte : Int → UInt8) (addr : Int) (s : List UInt8) : Int → UInt8 := fun a =>
  if addr ≤ a ∧ a < addr + s.length then s.getD (a - addr).toNat 0 else byte a

def Store.write (st : Store) (addr : Int) (size : Nat) (s : List UInt8) : Store :=
  ⟨poke st.byte addr s, st.writes ++ [⟨addr, size, s.length⟩]⟩

/-- What `snprintf` returns for the text `s`; `tooLong` is what it returns for
a length that is no `int`. -/
def returned (tooLong : Nat → Int32) (s : List UInt8) : Int :=
  if s.length < 2 ^ 31 then s.length else (tooLong s.length).toInt

/-- `snprintf(addr, size, ..)` of the text `s`: what fits with its NUL. -/
def snprintf (tooLong : Nat → Int32) (st : Store) (addr : Int) (size : Nat) (s : List UInt8) :
    Store × Int :=
  (st.write addr size (if size = 0 then [] else s.take (size - 1) ++ [0]), returned tooLong s)

/-- The pointer `p` and the size `n`. -/
structure Cursor where
  store : Store
  addr : Int
  left : Nat

namespace Cursor

/-- `p += ret; n -= ret;` -/
def move (c : Cursor) (st : Store) (ret : Int) : Cursor :=
  ⟨st, c.addr + ret, (((c.left : Int) - ret) % 2 ^ 64).toNat⟩

/-- `ret = snprintf(p, n, ..); p += ret; n -= ret;` -/
def text (tooLong : Nat → Int32) (c : Cursor) (s : List UInt8) : Cursor :=
  let r := snprintf tooLong c.store c.addr c.left s
  c.move r.1 r.2

/-- `if (n > 0) { *p = b; p += 1; n -= 1; }` -/
def put (c : Cursor) (b : UInt8) : Cursor :=
  if 0 < c.left then c.move (c.store.write c.addr c.left [b]) 1 else c

/-- `ret = f(p, n, ..); p += ret; n -= ret;` -/
def call (c : Cursor) (f : Store → Int → Nat → Store × Int) : Cursor :=
  let r := f (c.store.write c.addr c.left []) c.addr c.left
  c.move r.1 r.2

/-- `return size - n;` as an `int` -/
def result (c : Cursor) (size : Nat) : Store × Int :=
  (c.store, Int.bmod (((size : Int) - c.left) % 2 ^ 64) (2 ^ 32))

end Cursor

/-! ## Pieces -/

/-- What is printed by one `snprintf`, by one byte that is put, and by one
call. -/
inductive Piece where
  | text (s : List UInt8)
  | byte (b : UInt8)
  | call (ps : List Piece)

variable (tooLong : Nat → Int32) (size : Nat)

mutual

def Piece.print (c : Cursor) : Piece → Cursor
  | .text s => c.text tooLong s
  | .byte b => c.put b
  | .call ps => c.call fun st addr left => (printAll ⟨st, addr, left⟩ ps).result left
termination_by structural p => p

def printAll (c : Cursor) : List Piece → Cursor
  | [] => c
  | p :: ps => printAll (p.print c) ps
termination_by structural ps => ps

end

mutual

/-- The text of a piece. -/
def Piece.bytes : Piece → List UInt8
  | .text s => s
  | .byte b => [b]
  | .call ps => allBytes ps
termination_by structural p => p

def allBytes : List Piece → List UInt8
  | [] => []
  | p :: ps => p.bytes ++ allBytes ps
termination_by structural ps => ps

end

mutual

/-- A piece with no calls in it. -/
def Piece.flat : Piece → List Piece
  | .text s => [.text s]
  | .byte b => [.byte b]
  | .call ps => flatAll ps
termination_by structural p => p

def flatAll : List Piece → List Piece
  | [] => []
  | p :: ps => p.flat ++ flatAll ps
termination_by structural ps => ps

end

mutual

/-- The lengths that are returned fit into an `int`. -/
def Piece.Fits : Piece → Prop
  | .text s => s.length < 2 ^ 31
  | .byte _ => True
  | .call ps => FitAll ps ∧ (allBytes ps).length < 2 ^ 31
termination_by structural p => p

def FitAll : List Piece → Prop
  | [] => True
  | p :: ps => p.Fits ∧ FitAll ps
termination_by structural ps => ps

end

/-- What `n` says at offset `o` of a buffer of `size` bytes. -/
def leftAt (o : Int) : Nat := (((size : Int) - o) % 2 ^ 64).toNat

mutual

/-- The offset after a piece that is printed at offset `o`. -/
def Piece.next (o : Int) : Piece → Int
  | .text s => o + returned tooLong s
  | .byte _ => if 0 < leftAt size o then o + 1 else o
  | .call ps => o + Int.bmod (nextAll o ps - o) (2 ^ 32)
termination_by structural p => p

def nextAll (o : Int) : List Piece → Int
  | [] => o
  | p :: ps => nextAll (p.next o) ps
termination_by structural ps => ps

end

mutual

/-- **The piece is printed inside the buffer**, or where nothing is left. -/
def Piece.Starts (o : Int) : Piece → Prop
  | .text _ => 0 ≤ o ∧ o ≤ size ∨ leftAt size o = 0
  | .byte _ => 0 ≤ o ∧ o ≤ size ∨ leftAt size o = 0
  | .call ps => (o ≤ size ∨ leftAt size o = 0) ∧ StartAll o ps
termination_by structural p => p

def StartAll (o : Int) : List Piece → Prop
  | [] => True
  | p :: ps => p.Starts o ∧ StartAll (p.next tooLong size o) ps
termination_by structural ps => ps

end

variable {tooLong : Nat → Int32} {size : Nat} {base o : Int} {c : Cursor} {p : Piece}
  {ps qs : List Piece} {s : List UInt8}

/-! ## Where the cursor stands -/

theorem leftAt_add (o r : Int) :
    (((leftAt size o : Int) - r) % 2 ^ 64).toNat = leftAt size (o + r) := by
  unfold leftAt
  omega

/-- Inside the buffer the size is what is left. -/
theorem leftAt_eq (hsize : size < 2 ^ 64) (h0 : 0 ≤ o) (hle : o ≤ size) :
    (leftAt size o : Int) = size - o := by
  unfold leftAt
  omega

/-- The cursor stands at offset `o` of the buffer at `base`. -/
structure Cursor.At (c : Cursor) (base : Int) (size : Nat) (o : Int) : Prop where
  addr : c.addr = base + o
  left : c.left = leftAt size o

theorem Cursor.At.start (hsize : size < 2 ^ 64) (st : Store) (base : Int) :
    Cursor.At ⟨st, base, size⟩ base size 0 :=
  ⟨(Int.add_zero base).symm, by
    show size = leftAt size 0
    unfold leftAt
    omega⟩

/-- The function that is called starts where its caller stands. -/
theorem Cursor.At.callee (h : c.At base size o) :
    Cursor.At ⟨c.store.write c.addr c.left [], c.addr, c.left⟩ base size o :=
  ⟨h.addr, h.left⟩

theorem Cursor.At.move (h : c.At base size o) (st : Store) (r : Int) :
    (c.move st r).At base size (o + r) :=
  ⟨by rw [Cursor.move, h.addr, Int.add_assoc], by rw [Cursor.move, h.left, leftAt_add]⟩

/-- What a function returns is how far it has come, as an `int`. -/
theorem result_eq (hc : c.left = leftAt size o) (o' : Int) :
    (c.result (leftAt size o')).2 = Int.bmod (o - o') (2 ^ 32) := by
  have hmod : ((leftAt size o' : Int) - leftAt size o) % 2 ^ 64 % ((2 ^ 32 : Nat) : Int)
      = (o - o') % ((2 ^ 32 : Nat) : Int) := by
    unfold leftAt
    omega
  rw [Cursor.result, hc, ← Int.emod_bmod, hmod, Int.emod_bmod]

/-- The byte at `a` belongs to the buffer of `size` bytes at `base`. -/
def Inside (base : Int) (size : Nat) (a : Int) : Prop := base ≤ a ∧ a < base + size

/-- **The call writes in the buffer only**, and was not promised more than
what is left there. -/
structure Write.Within (w : Write) (base : Int) (size : Nat) : Prop where
  inside : ∀ i < w.length, Inside base size (w.addr + i)
  size : w.size ≤ (base + size - w.addr).toNat

/-- All calls so far have been such. -/
def Store.Within (st : Store) (base : Int) (size : Nat) : Prop :=
  ∀ w ∈ st.writes, w.Within base size

instance (base : Int) (size : Nat) (a : Int) : Decidable (Inside base size a) :=
  inferInstanceAs (Decidable (base ≤ a ∧ a < base + size))

instance (w : Write) (base : Int) (size : Nat) : Decidable (w.Within base size) :=
  decidable_of_iff ((∀ i < w.length, Inside base size (w.addr + i))
      ∧ w.size ≤ (base + size - w.addr).toNat) ⟨fun h => ⟨h.1, h.2⟩, fun h => ⟨h.1, h.2⟩⟩

instance (st : Store) (base : Int) (size : Nat) : Decidable (st.Within base size) :=
  inferInstanceAs (Decidable (∀ w ∈ st.writes, w.Within base size))

theorem Store.within_write {st : Store} {addr : Int} {n : Nat} :
    (st.write addr n s).Within base size
      ↔ st.Within base size ∧ Write.Within ⟨addr, n, s.length⟩ base size := by
  simp only [Store.Within, Store.write, List.forall_mem_append, List.forall_mem_singleton]

/-- A call that writes `n > 0` bytes, of which it was given room for, at
offset `o`. -/
theorem within_iff {n : Nat} (hsize : size < 2 ^ 64) (hn : 0 < n) (hle : n ≤ leftAt size o) :
    Write.Within ⟨base + o, leftAt size o, n⟩ base size ↔ 0 ≤ o ∧ o ≤ size := by
  constructor
  · intro h
    have := h.inside 0 hn
    simp only [Inside] at this
    omega
  · rintro ⟨h0, ho⟩
    have hleft := leftAt_eq hsize h0 ho
    refine ⟨fun i hi => ?_, ?_⟩
    · simp only [Inside]
      dsimp only at hi
      omega
    · dsimp only
      omega

/-- A call that writes nothing itself. -/
theorem within_nothing_iff : Write.Within ⟨base + o, leftAt size o, 0⟩ base size
    ↔ o ≤ size ∨ leftAt size o = 0 := by
  constructor
  · intro h
    have := h.size
    dsimp only at this
    omega
  · intro h
    refine ⟨fun i hi => absurd hi (Nat.not_lt_zero i), ?_⟩
    unfold leftAt at *
    dsimp only
    omega

theorem text_at (h : c.At base size o) (s : List UInt8) :
    (c.text tooLong s).At base size (o + returned tooLong s) := h.move _ _

/-- **One `snprintf`** is in order where it starts inside the buffer. -/
theorem text_within (hsize : size < 2 ^ 64) (h : c.At base size o) (s : List UInt8) :
    (c.text tooLong s).store.Within base size
      ↔ c.store.Within base size ∧ (0 ≤ o ∧ o ≤ size ∨ leftAt size o = 0) := by
  show (Store.write _ _ _ _).Within base size ↔ _
  rw [Store.within_write, h.addr, h.left]
  refine and_congr_right fun _ => ?_
  by_cases hz : leftAt size o = 0
  · rw [if_pos hz]
    exact iff_of_true (within_nothing_iff.mpr (.inr hz)) (.inr hz)
  · rw [if_neg hz, within_iff hsize (by simp) (by simp; omega)]
    exact (or_iff_left hz).symm

theorem put_at (h : c.At base size o) (b : UInt8) :
    (c.put b).At base size (if 0 < leftAt size o then o + 1 else o) := by
  rw [Cursor.put, ← h.left]
  split
  · exact h.move _ _
  · exact h

/-- **One byte** is in order where it starts inside the buffer. -/
theorem put_within (hsize : size < 2 ^ 64) (h : c.At base size o) (b : UInt8) :
    (c.put b).store.Within base size
      ↔ c.store.Within base size ∧ (0 ≤ o ∧ o ≤ size ∨ leftAt size o = 0) := by
  rw [Cursor.put]
  split
  case isTrue hpos =>
    show (Store.write _ _ _ _).Within base size ↔ _
    rw [Store.within_write, h.addr, h.left]
    rw [h.left] at hpos
    refine and_congr_right fun _ => ?_
    rw [within_iff hsize (by simp) (show [b].length ≤ leftAt size o from hpos)]
    exact (or_iff_left (Nat.ne_of_gt hpos)).symm
  case isFalse hpos =>
    have hz : leftAt size o = 0 := by rw [← h.left]; omega
    exact ⟨fun hc => ⟨hc, .inr hz⟩, fun hc => hc.1⟩

mutual

/-- **Printing a piece** moves the cursor as `next` says, and is in order just
where `Starts` says. -/
theorem Piece.print_at (hsize : size < 2 ^ 64) : ∀ (p : Piece) {o : Int} {c : Cursor},
    c.At base size o → (p.print tooLong c).At base size (p.next tooLong size o)
      ∧ ((p.print tooLong c).store.Within base size
        ↔ c.store.Within base size ∧ p.Starts tooLong size o)
  | .text s, o, c, h => by
      rw [Piece.print, Piece.next, Piece.Starts]
      exact ⟨text_at h s, text_within hsize h s⟩
  | .byte b, o, c, h => by
      rw [Piece.print, Piece.next, Piece.Starts]
      exact ⟨put_at h b, put_within hsize h b⟩
  | .call ps, o, c, h => by
      obtain ⟨hat, hwithin⟩ := printAll_at hsize ps h.callee
      rw [Piece.print, Piece.next, Piece.Starts, ← and_assoc,
        ← @within_nothing_iff size base o]
      refine ⟨?_, ?_⟩
      · have hret := result_eq hat.left o
        rw [← h.left] at hret
        rw [← hret]
        exact h.move _ _
      · rw [h.addr, h.left, Store.within_write] at hwithin
        rw [Cursor.call, h.addr, h.left]
        exact hwithin
termination_by structural p => p

theorem printAll_at (hsize : size < 2 ^ 64) : ∀ (ps : List Piece) {o : Int} {c : Cursor},
    c.At base size o → (printAll tooLong c ps).At base size (nextAll tooLong size o ps)
      ∧ ((printAll tooLong c ps).store.Within base size
        ↔ c.store.Within base size ∧ StartAll tooLong size o ps)
  | [], o, c, h => by
      rw [printAll, nextAll, StartAll]
      exact ⟨h, (and_iff_left trivial).symm⟩
  | p :: ps, o, c, h => by
      obtain ⟨hat, hwithin⟩ := p.print_at hsize h
      obtain ⟨hat', hwithin'⟩ := printAll_at hsize ps hat
      rw [printAll, nextAll, StartAll, ← and_assoc, ← hwithin]
      exact ⟨hat', hwithin'⟩
termination_by structural ps => ps

end

/-! ## Enough room -/

/-- Memory with the text `s` at `a`, and as it was but for the byte after
it. -/
structure Printed (m m' : Int → UInt8) (a : Int) (s : List UInt8) : Prop where
  text : ∀ i < s.length, s[i]? = some (m' (a + i))
  rest : ∀ b, b < a ∨ a + s.length < b → m' b = m b

theorem Printed.refl (m : Int → UInt8) (a : Int) : Printed m m a [] :=
  ⟨fun _ hi => absurd hi (Nat.not_lt_zero _), fun _ _ => rfl⟩

theorem Printed.trans {m m' m'' : Int → UInt8} {a : Int} {s t : List UInt8}
    (h : Printed m m' a s) (h' : Printed m' m'' (a + s.length) t) :
    Printed m m'' a (s ++ t) where
  text := fun i hi => by
    by_cases his : i < s.length
    · rw [List.getElem?_append_left his, h.text i his, h'.rest _ (.inl (by omega))]
    · rw [List.length_append] at hi
      rw [List.getElem?_append_right (by omega), h'.text _ (by omega)]
      congr 2
      omega
  rest := fun b hb => by
    rw [List.length_append] at hb
    rw [h'.rest b (by omega), h.rest b (by omega)]

theorem poke_nil (m : Int → UInt8) (a : Int) : poke m a [] = m := by
  funext b
  exact if_neg (by simp)

/-- Memory after a write of `s`, of which the last byte may be more than the
text. -/
theorem poke_printed (m : Int → UInt8) (a : Int) {s t : List UInt8} (ht : t.length ≤ 1) :
    Printed m (poke m a (s ++ t)) a s where
  text := fun i hi => by
    rw [poke, if_pos (by simp; omega)]
    have hoff : (a + i - a).toNat = i := by omega
    rw [hoff, List.getD_eq_getElem?_getD, List.getElem?_append_left hi,
      List.getElem?_eq_getElem hi]
    rfl
  rest := fun b hb => if_neg (by simp; omega)

theorem returned_eq (hs : s.length < 2 ^ 31) : returned tooLong s = s.length := if_pos hs

/-- The size is more than the text, so that all of it is written. -/
theorem text_store (hsize : size < 2 ^ 64) (h : c.At base size o) (h0 : 0 ≤ o)
    (hroom : o + s.length < size) :
    (c.text tooLong s).store.byte = poke c.store.byte (base + o) (s ++ [0]) := by
  have hleft := leftAt_eq hsize h0 (show o ≤ size by omega)
  show poke _ _ _ = _
  rw [h.left, if_neg (by omega), List.take_of_length_le (by omega), h.addr]

mutual

/-- **Where there is room**, `next` counts the text. -/
theorem Piece.next_eq (hsize : size < 2 ^ 64) : ∀ (p : Piece) {o : Int}, p.Fits → 0 ≤ o →
    o + p.bytes.length ≤ size → p.next tooLong size o = o + p.bytes.length
  | .text s, o, hfit, _, _ => by
      rw [Piece.Fits] at hfit
      rw [Piece.next, Piece.bytes, returned_eq hfit]
  | .byte b, o, _, h0, hle => by
      rw [Piece.bytes, List.length_singleton] at hle
      have hleft := leftAt_eq hsize h0 (show o ≤ size by omega)
      rw [Piece.next, Piece.bytes, if_pos (by omega)]
      rfl
  | .call ps, o, hfit, h0, hle => by
      rw [Piece.Fits] at hfit
      rw [Piece.bytes] at hle ⊢
      rw [Piece.next, nextAll_eq hsize ps hfit.1 h0 hle, Int.bmod_eq_of_le (by omega) (by omega)]
      omega
termination_by structural p => p

theorem nextAll_eq (hsize : size < 2 ^ 64) : ∀ (ps : List Piece) {o : Int}, FitAll ps → 0 ≤ o →
    o + (allBytes ps).length ≤ size → nextAll tooLong size o ps = o + (allBytes ps).length
  | [], o, _, _, _ => by
      rw [nextAll, allBytes]
      exact (Int.add_zero o).symm
  | p :: ps, o, hfit, h0, hle => by
      rw [FitAll] at hfit
      rw [allBytes, List.length_append] at hle ⊢
      rw [nextAll, p.next_eq hsize hfit.1 h0 (by omega),
        nextAll_eq hsize ps hfit.2 (by omega) (by omega)]
      omega
termination_by structural ps => ps

end

mutual

/-- **Where there is room, the text of the piece is printed.** -/
theorem Piece.printed (hsize : size < 2 ^ 64) : ∀ (p : Piece) {o : Int} {c : Cursor},
    c.At base size o → p.Fits → 0 ≤ o → o + p.bytes.length < size →
    Printed c.store.byte (p.print tooLong c).store.byte (base + o) p.bytes
  | .text s, o, c, h, _, h0, hroom => by
      rw [Piece.bytes] at hroom ⊢
      rw [Piece.print, text_store hsize h h0 hroom]
      exact poke_printed _ _ (by simp)
  | .byte b, o, c, h, _, h0, hroom => by
      rw [Piece.bytes, List.length_singleton] at hroom
      have hleft := leftAt_eq hsize h0 (show o ≤ size by omega)
      have hpoke := poke_printed (s := [b]) (t := []) c.store.byte (base + o) (by simp)
      rw [List.append_nil, ← h.addr] at hpoke
      rw [Piece.print, Piece.bytes, Cursor.put, if_pos (by rw [h.left]; omega), ← h.addr]
      exact hpoke
  | .call ps, o, c, h, hfit, h0, hroom => by
      rw [Piece.Fits] at hfit
      rw [Piece.bytes] at hroom ⊢
      have hprinted := printedAll hsize ps h.callee hfit.1 h0 hroom
      rw [← poke_nil c.store.byte c.addr]
      exact hprinted
termination_by structural p => p

theorem printedAll (hsize : size < 2 ^ 64) : ∀ (ps : List Piece) {o : Int} {c : Cursor},
    c.At base size o → FitAll ps → 0 ≤ o → o + (allBytes ps).length < size →
    Printed c.store.byte (printAll tooLong c ps).store.byte (base + o) (allBytes ps)
  | [], o, c, _, _, _, _ => Printed.refl _ _
  | p :: ps, o, c, h, hfit, h0, hroom => by
      rw [FitAll] at hfit
      rw [allBytes, List.length_append] at hroom
      have hnext : (p.print tooLong c).At base size (p.next tooLong size o) :=
        (p.print_at hsize h).1
      rw [p.next_eq hsize hfit.1 h0 (by omega)] at hnext
      have hrest := printedAll hsize ps hnext hfit.2 (by omega) (by omega)
      rw [← Int.add_assoc] at hrest
      exact (p.printed hsize h hfit.1 h0 (by omega)).trans hrest
termination_by structural ps => ps

end

theorem printAll_append (c : Cursor) : ∀ (ps qs : List Piece),
    printAll tooLong c (ps ++ qs) = printAll tooLong (printAll tooLong c ps) qs := by
  intro ps
  induction ps generalizing c with
  | nil => exact fun _ => rfl
  | cons p ps ih => exact fun qs => ih (p.print tooLong c) qs

theorem allBytes_append : ∀ (ps qs : List Piece),
    allBytes (ps ++ qs) = allBytes ps ++ allBytes qs := by
  intro ps
  induction ps with
  | nil => exact fun _ => rfl
  | cons p ps ih =>
      intro qs
      rw [List.cons_append, allBytes, ih, allBytes, List.append_assoc]

mutual

/-- A text whose length is an `int` is made of such texts. -/
theorem Piece.fits_of_length : ∀ p : Piece, p.bytes.length < 2 ^ 31 → p.Fits
  | .text s, h => by
      rw [Piece.bytes] at h
      rwa [Piece.Fits]
  | .byte b, _ => by
      rw [Piece.Fits]
      trivial
  | .call ps, h => by
      rw [Piece.bytes] at h
      rw [Piece.Fits]
      exact ⟨fitAll_of_length ps h, h⟩
termination_by structural p => p

theorem fitAll_of_length : ∀ ps : List Piece, (allBytes ps).length < 2 ^ 31 → FitAll ps
  | [], _ => trivial
  | p :: ps, h => by
      rw [allBytes, List.length_append] at h
      rw [FitAll]
      exact ⟨p.fits_of_length (by omega), fitAll_of_length ps (by omega)⟩
termination_by structural ps => ps

end

/-- The last piece is printed by `snprintf`. -/
def EndsWithText (ps : List Piece) : Prop := ∃ qs s, ps = qs ++ [.text s]

/-- **Pieces that end with a text**, in a buffer that has room for them: the
buffer holds their text and a NUL, nothing else has changed, and the length
of the text is returned. -/
theorem EndsWithText.printAll (hend : EndsWithText ps) (tooLong : Nat → Int32) (st : Store)
    (base : Int) (hsize : size < 2 ^ 64) (hint : (allBytes ps).length < 2 ^ 31)
    (hroom : (allBytes ps).length < size) :
    let r := (BoundedPrint.printAll tooLong ⟨st, base, size⟩ ps).result size
    Printed st.byte r.1.byte base (allBytes ps) ∧ r.1.byte (base + (allBytes ps).length) = 0
      ∧ r.2 = (allBytes ps).length := by
  obtain ⟨qs, s, rfl⟩ := hend
  have hbytes : allBytes (qs ++ [.text s]) = allBytes qs ++ s := by
    rw [allBytes_append, allBytes, allBytes, Piece.bytes, List.append_nil]
  rw [hbytes, List.length_append] at hint hroom ⊢
  have hfit := fitAll_of_length qs (by omega)
  have hstart := Cursor.At.start hsize st base
  have hqs : (BoundedPrint.printAll tooLong ⟨st, base, size⟩ qs).At base size
      (nextAll tooLong size 0 qs) := (printAll_at hsize qs hstart).1
  rw [nextAll_eq hsize qs hfit (Int.le_refl 0) (by omega), Int.zero_add] at hqs
  have hbyte : (BoundedPrint.printAll tooLong ⟨st, base, size⟩ (qs ++ [.text s])).store.byte
      = poke (BoundedPrint.printAll tooLong ⟨st, base, size⟩ qs).store.byte
        (base + (allBytes qs).length) (s ++ [0]) := by
    rw [printAll_append]
    exact text_store hsize hqs (by omega) (by omega)
  have hat : (BoundedPrint.printAll tooLong ⟨st, base, size⟩ (qs ++ [.text s])).At base size
      ((allBytes qs).length + s.length) := by
    rw [printAll_append]
    have hs : returned tooLong s = s.length := returned_eq (by omega)
    rw [← hs]
    exact text_at hqs s
  have hprinted : Printed st.byte (BoundedPrint.printAll tooLong ⟨st, base, size⟩ qs).store.byte
      (base + 0) (allBytes qs) := printedAll hsize qs hstart hfit (Int.le_refl 0) (by omega)
  rw [Int.add_zero] at hprinted
  refine ⟨?_, ?_, ?_⟩
  · show Printed _ (BoundedPrint.printAll tooLong _ (qs ++ [.text s])).store.byte _ _
    rw [hbyte]
    exact hprinted.trans (poke_printed _ _ (by simp))
  · show (BoundedPrint.printAll tooLong _ (qs ++ [.text s])).store.byte _ = 0
    rw [hbyte, poke, if_pos (by simp; omega)]
    have hoff : (base + ((allBytes qs).length + s.length : Nat)
        - (base + (allBytes qs).length)).toNat = s.length := by omega
    rw [hoff]
    simp
  · have hret := result_eq hat.left 0
    have hzero : leftAt size 0 = size := by unfold leftAt; omega
    rw [hzero] at hret
    rw [hret, Int.sub_zero, Int.bmod_eq_of_le (by omega) (by omega)]
    omega

/-! ## How much room is needed -/

mutual

/-- No piece moves the cursor back, nor further than its text. -/
theorem Piece.next_bounds : ∀ (p : Piece) (o : Int), p.Fits →
    o ≤ p.next tooLong size o ∧ p.next tooLong size o ≤ o + p.bytes.length
  | .text s, o, hfit => by
      rw [Piece.Fits] at hfit
      rw [Piece.next, Piece.bytes, returned_eq hfit]
      omega
  | .byte b, o, _ => by
      rw [Piece.next, Piece.bytes, List.length_singleton]
      split <;> omega
  | .call ps, o, hfit => by
      rw [Piece.Fits] at hfit
      have hps := nextAll_bounds ps o hfit.1
      rw [Piece.next, Piece.bytes, Int.bmod_eq_of_le (by omega) (by omega)]
      omega
termination_by structural p => p

theorem nextAll_bounds : ∀ (ps : List Piece) (o : Int), FitAll ps →
    o ≤ nextAll tooLong size o ps ∧ nextAll tooLong size o ps ≤ o + (allBytes ps).length
  | [], o, _ => ⟨Int.le_refl o, Int.le_of_eq (Int.add_zero o).symm⟩
  | p :: ps, o, hfit => by
      rw [FitAll] at hfit
      have hp := p.next_bounds o hfit.1
      have hps := nextAll_bounds ps (p.next tooLong size o) hfit.2
      rw [nextAll, allBytes, List.length_append]
      omega
termination_by structural ps => ps

end

theorem Piece.next_call (o : Int) (hfit : (Piece.call ps).Fits) :
    (Piece.call ps).next tooLong size o = nextAll tooLong size o ps := by
  rw [Piece.Fits] at hfit
  have hps : o ≤ nextAll tooLong size o ps
      ∧ nextAll tooLong size o ps ≤ o + (allBytes ps).length := nextAll_bounds ps o hfit.1
  rw [Piece.next, Int.bmod_eq_of_le (by omega) (by omega)]
  omega

theorem startAll_append : ∀ (ps qs : List Piece) (o : Int),
    StartAll tooLong size o (ps ++ qs)
      ↔ StartAll tooLong size o ps ∧ StartAll tooLong size (nextAll tooLong size o ps) qs := by
  intro ps qs
  induction ps with
  | nil => exact fun _ => (and_iff_right trivial).symm
  | cons p ps ih =>
      intro o
      rw [List.cons_append, StartAll, StartAll, nextAll, ih, and_assoc]

/-- A piece that starts has not run past the end. -/
theorem Piece.Starts.le {o : Int} : ∀ {p : Piece}, p.Starts tooLong size o →
    o ≤ size ∨ leftAt size o = 0
  | .text _, h => by
      rw [Piece.Starts] at h
      exact h.imp_left And.right
  | .byte _, h => by
      rw [Piece.Starts] at h
      exact h.imp_left And.right
  | .call _, h => by
      rw [Piece.Starts] at h
      exact h.1

mutual

/-- **Calls make no difference** to what starts inside the buffer, if
something comes after them. -/
theorem Piece.startAll_flat : ∀ (p : Piece) (o : Int) (rest : List Piece), p.Fits → rest ≠ [] →
    (StartAll tooLong size o (p.flat ++ rest)
      ↔ p.Starts tooLong size o ∧ StartAll tooLong size (p.next tooLong size o) rest)
  | .text s, o, rest, _, _ => by rw [Piece.flat, List.singleton_append, StartAll]
  | .byte b, o, rest, _, _ => by rw [Piece.flat, List.singleton_append, StartAll]
  | .call ps, o, rest, hfit, hrest => by
      have hps := hfit
      rw [Piece.Fits] at hps
      rw [Piece.flat, Piece.next_call o hfit, Piece.Starts, and_assoc,
        ← startAll_flatAll ps o rest hps.1 hrest]
      refine (and_iff_right_of_imp fun h => ?_).symm
      cases hflat : flatAll ps ++ rest with
      | nil => exact absurd (List.append_eq_nil_iff.mp hflat).2 hrest
      | cons q qs =>
          rw [hflat, StartAll] at h
          exact h.1.le
termination_by structural p => p

theorem startAll_flatAll : ∀ (ps : List Piece) (o : Int) (rest : List Piece), FitAll ps →
    rest ≠ [] → (StartAll tooLong size o (flatAll ps ++ rest)
      ↔ StartAll tooLong size o ps ∧ StartAll tooLong size (nextAll tooLong size o ps) rest)
  | [], o, rest, _, _ => (and_iff_right trivial).symm
  | p :: ps, o, rest, hfit, hrest => by
      rw [FitAll] at hfit
      have hne : flatAll ps ++ rest ≠ [] := fun h => hrest (List.append_eq_nil_iff.mp h).2
      rw [flatAll, List.append_assoc, p.startAll_flat o _ hfit.1 hne,
        startAll_flatAll ps _ rest hfit.2 hrest, StartAll, nextAll, and_assoc]
termination_by structural ps => ps

end

/-- Bytes, and then one text. -/
def isTail : List Piece → Bool
  | [.text _] => true
  | .byte _ :: ps => isTail ps
  | _ => false

/-- **The room that pieces need**: their text, but for the last piece and the
bytes right before it. -/
def needed : List Piece → Nat
  | [] => 0
  | p :: ps => if isTail (p :: ps) then 0 else p.bytes.length + needed ps

/-- What may follow a byte: another, or a text that is not empty. -/
def FollowsByte : List Piece → Prop
  | .text s :: _ => s ≠ []
  | .byte _ :: _ => True
  | .call _ :: _ => False
  | [] => False

/-- No calls; bytes go before a text that is not empty. -/
def Closed : List Piece → Prop
  | .text _ :: ps => Closed ps
  | .byte _ :: ps => Closed ps ∧ FollowsByte ps
  | .call _ :: _ => False
  | [] => True

theorem startAll_of_isTail (hsize : size < 2 ^ 64) : ∀ (ps : List Piece) {o : Int}, 0 ≤ o →
    o ≤ size → isTail ps = true → StartAll tooLong size o ps := by
  intro ps
  induction ps with
  | nil => exact fun _ _ _ => trivial
  | cons p ps ih =>
      intro o h0 hle htail
      cases p with
      | text s =>
          cases ps with
          | nil => exact ⟨.inl ⟨h0, hle⟩, trivial⟩
          | cons => cases htail
      | byte b =>
          have hleft := leftAt_eq hsize h0 hle
          refine ⟨.inl ⟨h0, hle⟩, ?_⟩
          rw [Piece.next]
          split
          · exact ih (by omega) (by omega) htail
          · exact ih h0 hle htail
      | call => cases htail

/-- Past the end, but not by more than an `int`, nothing starts. -/
theorem not_startAll (hgt : size < o) (hlt : o ≤ size + 2 ^ 31)
    (hne : ps ≠ []) : ¬ StartAll tooLong size o ps := by
  intro h
  obtain ⟨p, qs, rfl⟩ := List.exists_cons_of_ne_nil hne
  rw [StartAll] at h
  rcases h.1.le with hle | hz
  · omega
  · unfold leftAt at hz
    omega

theorem Closed.needed_pos {b : UInt8} (h : Closed (.byte b :: ps)) (htail : isTail ps = false) :
    0 < needed ps := by
  rw [Closed] at h
  cases ps with
  | nil => exact h.2.elim
  | cons p ps =>
      rw [needed, htail]
      cases p with
      | text s =>
          have := List.length_pos_iff.mpr (show s ≠ [] from h.2)
          rw [Piece.bytes]
          simp only [Bool.false_eq_true, if_false]
          omega
      | byte b' =>
          rw [Piece.bytes]
          exact Nat.add_pos_left (Nat.succ_pos 0) _
      | call => exact h.2.elim

/-- **Where nothing is called**, pieces start inside the buffer just where
there is the room that they need. -/
theorem Closed.startAll_iff (hsize : size < 2 ^ 64) : ∀ (ps : List Piece) {o : Int}, Closed ps →
    FitAll ps → 0 ≤ o → o ≤ size → (StartAll tooLong size o ps ↔ o + needed ps ≤ size) := by
  intro ps
  induction ps with
  | nil => exact fun _ _ _ hle => iff_of_true trivial (by simpa [needed] using hle)
  | cons p ps ih =>
      intro o hclosed hfit h0 hle
      rw [needed]
      cases htail : isTail (p :: ps) with
      | true =>
          exact iff_of_true (startAll_of_isTail hsize _ h0 hle htail) (by simpa using hle)
      | false =>
          rw [FitAll] at hfit
          have hstarts : 0 ≤ o ∧ o ≤ size ∨ leftAt size o = 0 := .inl ⟨h0, hle⟩
          simp only [Bool.false_eq_true, if_false]
          cases p with
          | text s =>
              have hne : ps ≠ [] := by
                rintro rfl
                cases htail
              have hs : s.length < 2 ^ 31 := by
                have := hfit.1
                rwa [Piece.Fits] at this
              rw [StartAll, Piece.Starts, Piece.next, Piece.bytes, returned_eq hs,
                and_iff_right hstarts]
              by_cases hroom : o + s.length ≤ size
              · rw [ih hclosed hfit.2 (by omega) hroom]
                omega
              · exact iff_of_false (not_startAll (by omega) (by omega) hne) (by omega)
          | byte b =>
              have hpos := hclosed.needed_pos htail
              have hleft := leftAt_eq hsize h0 hle
              rw [StartAll, Piece.Starts, Piece.next, Piece.bytes, and_iff_right hstarts,
                List.length_singleton]
              split
              · rw [ih hclosed.1 hfit.2 (by omega) (by omega)]
                omega
              · rw [ih hclosed.1 hfit.2 h0 hle]
                omega
          | call => exact hclosed.elim

theorem flatAll_append : ∀ (ps qs : List Piece),
    flatAll (ps ++ qs) = flatAll ps ++ flatAll qs := by
  intro ps
  induction ps with
  | nil => exact fun _ => rfl
  | cons p ps ih =>
      intro qs
      rw [List.cons_append, flatAll, ih, flatAll, List.append_assoc]

theorem fitAll_append : ∀ {ps qs : List Piece}, FitAll (ps ++ qs) ↔ FitAll ps ∧ FitAll qs := by
  intro ps qs
  induction ps with
  | nil => exact (and_iff_right trivial).symm
  | cons p ps ih => rw [List.cons_append, FitAll, ih, FitAll, and_assoc]

mutual

theorem Piece.Fits.flat : ∀ {p : Piece}, p.Fits → FitAll p.flat
  | .text s, h => by
      rw [Piece.flat]
      exact ⟨h, trivial⟩
  | .byte b, h => by
      rw [Piece.flat]
      exact ⟨h, trivial⟩
  | .call ps, h => by
      rw [Piece.Fits] at h
      rw [Piece.flat]
      exact fitAll_flat ps h.1
termination_by structural p => p

theorem fitAll_flat : ∀ ps : List Piece, FitAll ps → FitAll (flatAll ps)
  | [], _ => trivial
  | p :: ps, h => by
      rw [FitAll] at h
      rw [flatAll]
      exact fitAll_append.mpr ⟨h.1.flat, fitAll_flat ps h.2⟩
termination_by structural ps => ps

end

/-- **Pieces that end with a text start inside the buffer** just where it has
the room that they need. -/
theorem EndsWithText.startAll_iff (hsize : size < 2 ^ 64) (hend : EndsWithText ps)
    (hfit : FitAll ps) (hclosed : Closed (flatAll ps)) :
    StartAll tooLong size 0 ps ↔ needed (flatAll ps) ≤ size := by
  obtain ⟨qs, s, rfl⟩ := hend
  have hflat := fitAll_flat _ hfit
  rw [flatAll_append] at hclosed hflat ⊢
  have hlast : flatAll [Piece.text s] = [.text s] := by
    rw [flatAll, flatAll, Piece.flat, List.append_nil]
  rw [hlast] at hclosed hflat ⊢
  rw [startAll_append, ← startAll_flatAll qs 0 _ (fitAll_append.mp hfit).1 (List.cons_ne_nil _ _),
    hclosed.startAll_iff hsize _ hflat (Int.le_refl 0) (Int.natCast_nonneg size)]
  omega

/-- What is closed may be put together. -/
theorem Closed.append : ∀ {ps qs : List Piece}, Closed ps → Closed qs → Closed (ps ++ qs) := by
  intro ps qs hps hqs
  induction ps with
  | nil => exact hqs
  | cons p ps ih =>
      cases p with
      | text s => exact ih hps
      | byte b =>
          obtain ⟨hps, hfollows⟩ := hps
          refine ⟨ih hps, ?_⟩
          cases ps with
          | nil => exact hfollows.elim
          | cons q ps => cases q <;> exact hfollows
      | call => exact hps.elim

end BoundedPrint
