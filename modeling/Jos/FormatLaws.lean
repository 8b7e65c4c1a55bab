import Jos.FormatRules

/-!
# Laws of Formats

What holds of every format string. A format that is read to its end without an escape
being cut off can be continued by any other (`output_append`): no flag, width, precision,
length or argument position leaks out of an escape. An escape with an unknown conversion
character, or cut off by the NUL, prints its own characters (`vprintfmt_malformed`).

## Main results

* `items_append`: the items of a format that another is appended to.
* `runItems_append`: they are carried out one format after the other.
* `output_append`: **formats compose**.
* `Prints.append`: and so does what is known of their output.
* `vprintfmt_malformed`: **malformed formats are harmless**.
-/

namespace Jos

/-! ### Appending formats -/

/-- Nothing but a cut escape depends on what comes after the format. -/
theorem parse_append {m : Option (List Byte)} {t : List Byte}
    (h : ∀ i ∈ parse m t, i.Whole) (u : List Byte) :
    parse m (t ++ u) = parse m t ++ parse none u := by
  induction t generalizing m with
  | nil =>
      cases m with
      | none => rfl
      | some body => exact absurd (h (.cut body) (List.mem_singleton_self _)) id
  | cons b t ih =>
      cases m with
      | none =>
          rw [List.cons_append, parse, parse]
          by_cases hb : b = chr '%'
          · rw [parse, if_pos hb] at h
            rw [if_pos hb, if_pos hb]
            exact ih h
          · rw [parse, if_neg hb] at h
            rw [if_neg hb, if_neg hb, List.cons_append,
              ih fun i hi => h i (List.mem_cons_of_mem _ hi)]
      | some body =>
          rw [List.cons_append, parse, parse]
          by_cases hb : isFlag b
          · rw [parse, if_pos hb] at h
            rw [if_pos hb, if_pos hb]
            exact ih h
          · rw [parse, if_neg hb] at h
            rw [if_neg hb, if_neg hb, List.cons_append,
              ih fun i hi => h i (List.mem_cons_of_mem _ hi)]

/-- **The items of a format** that goes on after no cut escape. -/
theorem items_append {t : List Byte} (h : Uncut t) (u : List Byte) :
    items (t ++ u) = items t ++ items u :=
  parse_append h u

section

variable {σ : Type} (putch : BitVec 32 → σ → σ)

/-- Items are carried out in order. -/
theorem runItems_append (pf : List Byte → Args → σ → Except Fault (σ × Args)) {is : List Item}
    (h : ∀ i ∈ is, i.Whole) (js : List Item) (ap : Args) (s : σ) :
    runItems putch pf (is ++ js) ap s =
      (runItems putch pf is ap s >>= fun r => runItems putch pf js r.2 r.1) := by
  induction is generalizing ap s with
  | nil => rfl
  | cons i is ih =>
      have htail : ∀ j ∈ is, j.Whole := fun j hj => h j (List.mem_cons_of_mem i hj)
      cases i with
      | lit b => exact ih htail ap _
      | esc body ch =>
          rw [List.cons_append, runItems, runItems]
          rcases flags body none .init ap with e | ⟨o, ap'⟩
          · rfl
          simp only [ok_bind]
          rcases convert putch pf o ch ap' s with _ | e | ⟨s', ap''⟩
          · exact ih htail _ _
          · rfl
          · exact ih htail _ _
      | cut body => exact absurd (h (.cut body) (List.mem_cons_self ..)) id

/-- What a format prints comes after what has been printed before. -/
theorem vprintfmt_prefix {t : List Byte} (ht : 0 ∉ t) (ap : Args) (out : List (BitVec 32)) :
    Agree (Both fun x y => x = out ++ y) (vprintfmt (fun c out => out ++ [c]) (t ++ [0]) ap out)
      (output (t ++ [0]) ap) := by
  refine vprintfmt_agree (fun c x y h => ?_) ht ap (List.append_nil out).symm
  rw [h, List.append_assoc]

/-- What a format prints with its own arguments comes first, and another one that is appended to
it goes on with those that are left. -/
theorem output_cat {F G : List Byte} (hF : 0 ∉ F) (hG : 0 ∉ G) (huncut : Uncut F) {a : Args}
    {x : List (BitVec 32)} (ha : output (F ++ [0]) a = .ok (x, [])) (b : Args) :
    output (F ++ G ++ [0]) (a ++ b) = (output (G ++ [0]) b).map fun r => (x ++ r.1, r.2) := by
  have hnul : 0 ∉ F ++ G := fun h => (List.mem_append.mp h).elim hF hG
  -- `F` leaves the arguments of `G`
  have hfirst : vprintfmt (fun c out => out ++ [c]) (F ++ [0]) (a ++ b) [] = .ok (x, b) :=
    vprintfmt_local (fun c out => out ++ [c]) hF [] a x [] ha b
  rw [vprintfmt_items _ hF] at hfirst
  -- and `G` prints behind the output of `F`
  have hsecond := vprintfmt_prefix hG b x
  rw [vprintfmt_items _ hG] at hsecond
  rw [output, vprintfmt_items _ hnul, items_append huncut, runItems_append _ _ huncut, hfirst,
    ok_bind]
  generalize runItems _ _ (items G) b x = y at hsecond ⊢
  generalize output (G ++ [0]) b = z at hsecond ⊢
  cases hsecond with
  | error e => rfl
  | ok h => exact congrArg Except.ok (Prod.ext h.1 h.2)

/-- **Formats compose.** Where no escape of `F` is cut off by its end and the arguments `a`
are those that `F` reads, `F` followed by `G` prints with the arguments `a` and `b` what `F`
prints with `a`, and then what `G` prints with `b`. -/
theorem output_append {F G : List Byte} (hF : 0 ∉ F) (hG : 0 ∉ G) (huncut : Uncut F)
    {a b c : Args} {x y : List (BitVec 32)} (ha : output (F ++ [0]) a = .ok (x, []))
    (hb : output (G ++ [0]) b = .ok (y, c)) :
    output (F ++ G ++ [0]) (a ++ b) = .ok (x ++ y, c) := by
  rw [output_cat hF hG huncut ha, hb]
  rfl

/-- A literal character and a `%c`, and then another `%c`. -/
theorem output_append_letters :
    output (cstr "a%c%c") [.word 0x62, .word 0x63] = .ok ([0x61, 0x62] ++ [0x63], []) :=
  output_append (F := "a%c".toList.map chr) (G := "%c".toList.map chr) (a := [.word 0x62])
    (b := [.word 0x63]) (by decide) (by decide) (by decide) rfl rfl

/-! ### Formats with their arguments -/

/-- The format `F` reads the arguments `a`, and prints `x`. -/
structure Prints (F : List Byte) (a : Args) (x : List (BitVec 32)) : Prop where
  nul : 0 ∉ F
  uncut : Uncut F
  output : output (F ++ [0]) a = .ok (x, [])

/-- One behind the other. -/
theorem Prints.append {F G : List Byte} {a b : Args} {x y : List (BitVec 32)} (h : Prints F a x)
    (h' : Prints G b y) : Prints (F ++ G) (a ++ b) (x ++ y) where
  nul hnul := (List.mem_append.mp hnul).elim h.nul h'.nul
  uncut i hi := by
    rw [items_append h.uncut] at hi
    exact (List.mem_append.mp hi).elim (h.uncut i) (h'.uncut i)
  output := by
    rw [output_cat h.nul h'.nul h.uncut h.output, h'.output]
    rfl

/-- Literal characters. -/
theorem prints_lits {u : List Byte} (hu : ∀ b ∈ u, b ≠ chr '%' ∧ b ≠ 0) :
    Prints u [] (u.map (·.setWidth 32)) := by
  have hnul : 0 ∉ u := fun h => (hu 0 h).2 rfl
  have hitems : items u = u.map Item.lit := by
    have h := parse_lits (fun b hb => (hu b hb).1) []
    rwa [List.append_nil, parse, List.append_nil] at h
  have hputs : ∀ out : List (BitVec 32), puts (fun c out => out ++ [c]) u out =
      out ++ u.map (·.setWidth 32) := by
    clear hu hnul hitems
    induction u with
    | nil => exact fun out => (List.append_nil out).symm
    | cons b u ih => exact fun out => (ih _).trans (List.append_assoc ..)
  have hrun := runItems_lits (fun c out => out ++ [c]) (printfmt fun c out => out ++ [c]) u [] [] []
  refine ⟨hnul, fun i hi => ?_, ?_⟩
  · rw [hitems] at hi
    obtain ⟨b, -, rfl⟩ := List.mem_map.mp hi
    trivial
  · rw [List.append_nil, ← hitems, hputs] at hrun
    rw [Jos.output, vprintfmt_items _ hnul, hrun]
    rfl

/-! ### Malformed formats -/

/-- The arguments left after those that the `*` of an escape read. -/
def readStars : List Byte → Args → Except Fault Args
  | [], ap => .ok ap
  | b :: body, ap =>
      if b = chr '*' then vaInt ap >>= fun r => readStars body r.2
      else readStars body ap

/-- What stands before an escape is carried out before it. -/
theorem vprintfmt_append {F u : List Byte} (ht : 0 ∉ F ++ u) (huncut : Uncut F) (ap : Args)
    (s : σ) : vprintfmt putch (F ++ u ++ [0]) ap s =
      (vprintfmt putch (F ++ [0]) ap s >>= fun r =>
        runItems putch (printfmt putch) (items u) r.2 r.1) := by
  have hF : 0 ∉ F := fun h => ht (List.mem_append_left u h)
  rw [vprintfmt_items putch ht, vprintfmt_items putch hF, items_append huncut,
    runItems_append putch _ huncut]

/-- Of the flags of an escape, only `*` reads arguments. -/
theorem flags_bind {β : Type} {body : List Byte} (hbody : ∀ b ∈ body, isFlag b)
    (num : Option (BitVec 32)) (o : Opts) (ap : Args) (f : Args → Except Fault β) :
    (flags body num o ap >>= fun r => f r.2) = (readStars body ap >>= f) := by
  induction body generalizing num o ap with
  | nil => rfl
  | cons b body ih =>
      have htail : ∀ x ∈ body, isFlag x := fun x hx => hbody x (List.mem_cons_of_mem b hx)
      rw [flags, readStars]
      rcases flagStep_cases (hbody b (List.mem_cons_self ..)) num o with
        ⟨hstar, h⟩ | ⟨hstar, num', o', h⟩
      · rw [h, if_pos hstar]
        rcases vaInt ap with e | ⟨v, ap'⟩
        · rfl
        · exact ih htail _ _ _
      · rw [h, if_neg hstar]
        exact ih htail _ _ _

/-- **Malformed formats are harmless.** Whatever the bytes of the format, `vprintfmt` ends
and reads inside the string, its NUL included: an argument that is not supplied is the only
way to fail. An escape with an unknown conversion character prints its own characters from
the `%` on, each once, and what follows it is carried out as if it were a format of its
own; an escape that ends at the NUL prints its own characters. -/
theorem vprintfmt_malformed {t : List Byte} (ht : 0 ∉ t) :
    (∀ ap (s : σ), (∃ r, vprintfmt putch (t ++ [0]) ap s = .ok r) ∨
      vprintfmt putch (t ++ [0]) ap s = .error .arg) ∧
    (∀ F body ch G, t = F ++ chr '%' :: (body ++ ch :: G) → Uncut F → (∀ b ∈ body, isFlag b) →
      ¬ isFlag ch → ¬ isConv ch → ∀ ap (s : σ),
      vprintfmt putch (t ++ [0]) ap s =
        (vprintfmt putch (F ++ [0]) ap s >>= fun r => readStars body r.2 >>= fun ap =>
          vprintfmt putch (G ++ [0]) ap (puts putch (chr '%' :: (body ++ [ch])) r.1))) ∧
    (∀ F body, t = F ++ chr '%' :: body → Uncut F → (∀ b ∈ body, isFlag b) → ∀ ap (s : σ),
      vprintfmt putch (t ++ [0]) ap s =
        (vprintfmt putch (F ++ [0]) ap s >>= fun r => readStars body r.2 >>= fun ap =>
          .ok (puts putch (chr '%' :: body) r.1, ap))) := by
  refine ⟨fun ap s => ?_, ?_, ?_⟩
  · rcases h : vprintfmt putch (t ++ [0]) ap s with e | r
    · exact Or.inr (by rw [vprintfmt_onlyFails putch ht ap s e h])
    · exact Or.inl ⟨r, rfl⟩
  · rintro F body ch G rfl huncut hbody hflag hconv ap s
    have hG : 0 ∉ G := fun h => ht (List.mem_append_right F
      (List.mem_cons_of_mem _ (List.mem_append_right body (List.mem_cons_of_mem ch h))))
    rw [vprintfmt_append putch ht huncut, items_esc hbody hflag]
    congr 1
    funext r
    rw [← flags_bind hbody none .init]
    simp only [runItems, (convert_eq_none_iff putch (printfmt putch) _ ch _ _).mpr hconv,
      vprintfmt_items putch hG]
  · rintro F body rfl huncut hbody ap s
    rw [vprintfmt_append putch ht huncut, items_cut hbody]
    congr 1
    funext r
    rw [← flags_bind hbody none .init]
    rfl

end

/-- An unknown conversion after a flag and a starred width, and an escape cut off behind it. -/
theorem vprintfmt_malformed_letter :
    output (cstr "a%-*qb%5") [.word 3] =
      .ok ("a%-*qb%5".toList.map fun c => (chr c).setWidth 32, []) := by
  have hunknown := (vprintfmt_malformed (fun c (out : List (BitVec 32)) => out ++ [c])
    (t := "a%-*qb%5".toList.map chr) (by decide)).2.1
  have hcut := (vprintfmt_malformed (fun c (out : List (BitVec 32)) => out ++ [c])
    (t := "b%5".toList.map chr) (by decide)).2.2
  refine (hunknown [chr 'a'] [chr '-', chr '*'] (chr 'q') ("b%5".toList.map chr) rfl (by decide)
    (by decide) (by decide) (by decide) [.word 3] []).trans ?_
  refine (hcut [chr 'b'] [chr '5'] rfl (by decide) (by decide) [] _).trans ?_
  rfl

end Jos
