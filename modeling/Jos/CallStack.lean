import Jos.Linked
import Jos.Memory

/-!
# The Call Stack

The stack of a 32-bit machine, for code that keeps frame pointers: a call pushes its arguments,
the last one first, the return address and the caller's frame pointer, and takes the stack
pointer for its own frame pointer. So the frames of the active calls are a linked list, the
innermost call's first, which ends at the null pointer if the outermost call was made with a
frame pointer of zero.

* `Stack`: the memory and the two registers;
* `Activation`: an active call;
* `Stack.Holds`: the frames on the stack are those of the given calls.

## Main results

* `Holds.enter`: a call puts its frame in front of those that are there.
* `Holds.congr`: nothing below the frame pointer matters.
* `leave_of_enter`: its return gives the caller's registers back.
-/

namespace Jos

/-- The memory, the frame pointer and the stack pointer. -/
structure Stack where
  mem : Mem
  ebp : Addr
  esp : Addr

namespace Stack

/-- `push`. -/
def push (v : BitVec 32) (s : Stack) : Stack where
  mem := s.mem.stosl v (s.esp - 4)
  ebp := s.ebp
  esp := s.esp - 4

/-- A call, up to where the callee's frame is set up: the arguments are pushed, the last one
first, then the return address, and the callee pushes the frame pointer. -/
def enter (args : List (BitVec 32)) (ret : Addr) (s : Stack) : Stack :=
  let t := ((args.foldr push s).push ret).push s.ebp
  { t with ebp := t.esp }

/-- `leave` and `ret`, and the caller's removal of `k` arguments. -/
def leave (k : ℕ) (s : Stack) : Stack where
  mem := s.mem
  ebp := s.mem.load32 s.ebp
  esp := s.ebp + 8 + BitVec.ofNat 32 (4 * k)

end Stack

/-- An active call: of what function, with which arguments and return address, and its frame
pointer. -/
structure Activation (φ : Type) where
  fn : φ
  args : List (BitVec 32)
  ret : Addr
  ebp : Addr

/-- The frame at the call's frame pointer has its return address and its arguments. -/
structure Activation.Stored {φ : Type} (m : Mem) (c : Activation φ) : Prop where
  ret : m.load32 (c.ebp + BitVec.ofNat 32 4) = c.ret
  args : ∀ k v, c.args[k]? = some v → m.load32 (c.ebp + BitVec.ofNat 32 (8 + 4 * k)) = v

/-- **The frames of the stack** are those of the calls, the innermost first: they are linked,
one lies above the other, all of them above the frame pointer and below `top`. -/
structure Stack.Holds {φ : Type} (top : ℕ) (s : Stack) (calls : List (Activation φ)) : Prop where
  linked : Linked s.mem.load32 0 s.ebp (calls.map Activation.ebp)
  stored : ∀ c ∈ calls, c.Stored s.mem
  inside : ∀ c ∈ calls, s.ebp.toNat ≤ c.ebp.toNat ∧ c.ebp.toNat + 8 + 4 * c.args.length ≤ top
  ascending : calls.Pairwise fun c c' => c.ebp.toNat ≤ c'.ebp.toNat

/-! ### Words of the stack -/

/-- A word is the same in two memories that agree on its bytes. -/
theorem load32_eq_of_agree {m m' : Mem} {lo top : ℕ} (htop : top ≤ 2 ^ 32)
    (hm : ∀ a, lo ≤ a.toNat → a.toNat < top → m'.byte a = m.byte a) {a : Addr}
    (hlo : lo ≤ a.toNat) (ha : a.toNat + 4 ≤ top) : m'.load32 a = m.load32 a := by
  refine Mem.load32_congr fun i hi => ?_
  have hi' : (a + BitVec.ofNat 32 i).toNat = a.toNat + i := toNat_add_ofNat (by omega)
  exact hm _ (by omega) (by omega)

/-- What is stored of a call, in another memory. -/
theorem Activation.Stored.congr {φ : Type} {m m' : Mem} {c : Activation φ} (h : c.Stored m)
    {lo top : ℕ} (htop : top ≤ 2 ^ 32)
    (hm : ∀ a, lo ≤ a.toNat → a.toNat < top → m'.byte a = m.byte a) (hlo : lo ≤ c.ebp.toNat)
    (hc : c.ebp.toNat + 8 + 4 * c.args.length ≤ top) : c.Stored m' := by
  have hword : ∀ k : ℕ, k + 4 ≤ 8 + 4 * c.args.length →
      m'.load32 (c.ebp + BitVec.ofNat 32 k) = m.load32 (c.ebp + BitVec.ofNat 32 k) := by
    intro k hk
    have hk' : (c.ebp + BitVec.ofNat 32 k).toNat = c.ebp.toNat + k := toNat_add_ofNat (by omega)
    exact load32_eq_of_agree htop hm (by omega) (by omega)
  refine ⟨?_, fun k v hv => ?_⟩
  · rw [hword 4 (by omega), h.ret]
  · have hlt : k < c.args.length := (List.getElem?_eq_some_iff.mp hv).1
    rw [hword _ (by omega), h.args k v hv]

/-! ### Pushing -/

/-- The words `vs` have been pushed, the last one first. -/
structure Pushed (vs : List (BitVec 32)) (s t : Stack) : Prop where
  ebp : t.ebp = s.ebp
  esp : t.esp.toNat + 4 * vs.length = s.esp.toNat
  mem : Mem.Within (fun a => t.esp.toNat ≤ a.toNat ∧ a.toNat < s.esp.toNat) s.mem t.mem
  word : ∀ k v, vs[k]? = some v → t.mem.load32 (t.esp + BitVec.ofNat 32 (4 * k)) = v

/-- Nothing changes above. -/
theorem Pushed.above {vs : List (BitVec 32)} {s t : Stack} (h : Pushed vs s t) {a : Addr}
    (ha : s.esp.toNat ≤ a.toNat) : t.mem.byte a = s.mem.byte a :=
  h.mem.frame a fun hin => absurd hin.2 (Nat.not_lt.mpr ha)

/-- A push stores right below the stack pointer. -/
theorem push_within (v : BitVec 32) {s : Stack} (h : 4 ≤ s.esp.toNat) :
    Mem.Within (fun a => (s.push v).esp.toNat ≤ a.toNat ∧ a.toNat < s.esp.toNat) s.mem
      (s.push v).mem := by
  rw [Stack.push, Mem.stosl]
  refine (Mem.within_store32 ..).mono fun a ha => ?_
  rw [Mem.Span] at ha
  bv_omega

/-- One more word. -/
theorem Pushed.cons {vs : List (BitVec 32)} {s t : Stack} (h : Pushed vs s t) (v : BitVec 32)
    (ht : 4 ≤ t.esp.toNat) : Pushed (v :: vs) s (t.push v) := by
  have hesp := h.esp
  have hpush := push_within v ht
  have hnew : (t.push v).esp.toNat + 4 = t.esp.toNat := by
    rw [Stack.push]
    bv_omega
  refine ⟨h.ebp, ?_, ?_, fun k w hw => ?_⟩
  · rw [List.length_cons]
    omega
  · exact (h.mem.mono fun a ha => by omega).trans (hpush.mono fun a ha => by omega)
  · cases k with
    | zero =>
        obtain rfl : v = w := Option.some.inj hw
        rw [Nat.mul_zero, BitVec.add_zero]
        exact Mem.load32_stosl t.mem v _
    | succ k =>
        rw [List.getElem?_cons_succ] at hw
        have hlt : k < vs.length := (List.getElem?_eq_some_iff.mp hw).1
        have hsame : (t.push v).esp + BitVec.ofNat 32 (4 * (k + 1)) =
            t.esp + BitVec.ofNat 32 (4 * k) := by
          rw [Stack.push, Nat.mul_succ, Nat.add_comm, BitVec.ofNat_add, ← add_assoc]
          exact congrArg (· + _) (sub_add_cancel t.esp 4)
        have hword : (t.esp + BitVec.ofNat 32 (4 * k)).toNat = t.esp.toNat + 4 * k :=
          toNat_add_ofNat (by have := s.esp.isLt; omega)
        rw [hsame, load32_eq_of_agree (Nat.le_refl _)
          (fun a ha _ => hpush.frame a fun hin => absurd hin.2 (Nat.not_lt.mpr ha)) (by omega)
          (by have := s.esp.isLt; omega), h.word k w hw]

/-- **Pushing a list of words.** -/
theorem pushed_foldr (vs : List (BitVec 32)) {s : Stack} (h : 4 * vs.length ≤ s.esp.toNat) :
    Pushed vs s (vs.foldr Stack.push s) := by
  induction vs with
  | nil => exact ⟨rfl, rfl, .refl _ _, fun k v hv => by simp at hv⟩
  | cons v vs ih =>
      rw [List.length_cons] at h
      have hvs := ih (by omega)
      have hesp := hvs.esp
      exact hvs.cons v (by omega)

/-! ### Calls and returns -/

section

variable {φ : Type} {top : ℕ} (htop : top ≤ 2 ^ 32) {s : Stack} {calls : List (Activation φ)}

include htop in
/-- **The frames stay** as long as nothing between the frame pointer and the top changes. -/
theorem Stack.Holds.congr (h : s.Holds top calls) {s' : Stack} (hebp : s'.ebp = s.ebp)
    (hm : ∀ a, s.ebp.toNat ≤ a.toNat → a.toNat < top → s'.mem.byte a = s.mem.byte a) :
    s'.Holds top calls where
  linked := by
    rw [hebp]
    refine h.linked.congr fun b hb => ?_
    obtain ⟨c, hc, rfl⟩ := List.mem_map.mp hb
    obtain ⟨hlo, hhi⟩ := h.inside c hc
    exact load32_eq_of_agree htop hm hlo (by omega)
  stored c hc := (h.stored c hc).congr htop hm (h.inside c hc).1 (h.inside c hc).2
  inside := by rw [hebp]; exact h.inside
  ascending := h.ascending

section

variable {args : List (BitVec 32)} (hroom : 8 + 4 * args.length < s.esp.toNat) (ret : Addr)
include hroom

/-- A call pushes the words of its frame. -/
theorem pushed_enter : ∃ t, Pushed (s.ebp :: ret :: args) s t ∧
    s.enter args ret = { t with ebp := t.esp } := by
  refine ⟨(s.ebp :: ret :: args).foldr Stack.push s, pushed_foldr _ ?_, rfl⟩
  simp only [List.length_cons]
  omega

/-- Its frame pointer. -/
theorem toNat_enter_ebp :
    (s.enter args ret).ebp.toNat + (8 + 4 * args.length) = s.esp.toNat ∧
      (s.enter args ret).esp = (s.enter args ret).ebp := by
  obtain ⟨t, ht, heq⟩ := pushed_enter hroom ret
  have hesp := ht.esp
  simp only [List.length_cons] at hesp
  rw [heq]
  exact ⟨by dsimp only; omega, rfl⟩

/-- It stores to its frame only. -/
theorem enter_within : Mem.Within
    (fun a => (s.enter args ret).ebp.toNat ≤ a.toNat ∧ a.toNat < s.esp.toNat) s.mem
      (s.enter args ret).mem := by
  obtain ⟨t, ht, heq⟩ := pushed_enter hroom ret
  rw [heq]
  exact ht.mem

/-- **Its return** gives the caller's registers back, if its frame is as it was. -/
theorem leave_of_enter (s' : Stack) (hebp : s'.ebp = (s.enter args ret).ebp)
    (hm : ∀ a, (s.enter args ret).ebp.toNat ≤ a.toNat → a.toNat < s.esp.toNat →
      s'.mem.byte a = (s.enter args ret).mem.byte a) :
    (s'.leave args.length).ebp = s.ebp ∧ (s'.leave args.length).esp = s.esp := by
  obtain ⟨t, ht, heq⟩ := pushed_enter hroom ret
  have hesp := ht.esp
  have hlt := s.esp.isLt
  simp only [List.length_cons] at hesp
  rw [heq] at hebp hm
  constructor
  · have hsaved := ht.word 0 s.ebp rfl
    rw [Nat.mul_zero, BitVec.add_zero] at hsaved
    rw [Stack.leave, hebp, ← hsaved]
    exact load32_eq_of_agree hlt.le hm (Nat.le_refl _) (by dsimp only; omega)
  · refine BitVec.eq_of_toNat_eq ?_
    have hsum : s'.ebp + 8 + BitVec.ofNat 32 (4 * args.length) =
        t.esp + BitVec.ofNat 32 (8 + 4 * args.length) := by
      rw [hebp, BitVec.ofNat_add, ← add_assoc]
      rfl
    have hnat : (t.esp + BitVec.ofNat 32 (8 + 4 * args.length)).toNat =
        t.esp.toNat + (8 + 4 * args.length) := toNat_add_ofNat (by omega)
    rw [Stack.leave, hsum, hnat]
    omega

include htop in
/-- **A call** puts its frame in front of the others. -/
theorem Stack.Holds.enter (h : s.Holds top calls) (fn : φ) (hesp : s.esp.toNat ≤ top)
    (hbelow : ∀ c ∈ calls, s.esp.toNat ≤ c.ebp.toNat) :
    (s.enter args ret).Holds top (⟨fn, args, ret, (s.enter args ret).ebp⟩ :: calls) := by
  obtain ⟨t, ht, heq⟩ := pushed_enter hroom ret
  have hnew := ht.esp
  simp only [List.length_cons] at hnew
  have hm : ∀ a, s.esp.toNat ≤ a.toNat → a.toNat < top → t.mem.byte a = s.mem.byte a :=
    fun a ha _ => ht.above ha
  have hsaved : t.mem.load32 t.esp = s.ebp := by
    have hword := ht.word 0 s.ebp rfl
    rwa [Nat.mul_zero, BitVec.add_zero] at hword
  rw [heq]
  refine ⟨?_, ?_, ?_, ?_⟩
  · refine .cons (fun hzero => ?_) ?_
    · have hnat : t.esp.toNat = 0 := congrArg BitVec.toNat hzero
      omega
    · change Linked t.mem.load32 0 (t.mem.load32 t.esp) _
      rw [hsaved]
      refine h.linked.congr fun b hb => ?_
      obtain ⟨c, hc, rfl⟩ := List.mem_map.mp hb
      have hhi := (h.inside c hc).2
      exact load32_eq_of_agree htop hm (hbelow c hc) (by omega)
  · intro c hc
    obtain rfl | hc := List.mem_cons.mp hc
    · refine ⟨ht.word 1 ret rfl, fun k v hv => ?_⟩
      have hword := ht.word (k + 2) v hv
      rwa [show 4 * (k + 2) = 8 + 4 * k by omega] at hword
    · exact (h.stored c hc).congr htop hm (hbelow c hc) (h.inside c hc).2
  · intro c hc
    obtain rfl | hc := List.mem_cons.mp hc
    · dsimp only
      omega
    · have hlo := hbelow c hc
      have hhi := (h.inside c hc).2
      dsimp only
      omega
  · refine List.pairwise_cons.mpr ⟨fun c hc => ?_, h.ascending⟩
    have hlo := hbelow c hc
    dsimp only
    omega

end

end

end Jos
