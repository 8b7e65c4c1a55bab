import Jos.LibString
import Mathlib.Logic.Function.Iterate

/-!
# The Formatter

`lib/printfmt.c`. The functions are generic in the sink: a state `σ` and the `putch` that
changes it, which is given ints, as in the source. The format is the list of the bytes
that may be read from `fmt[0]` on, the terminating NUL included; the scan pointer is an
index into it, and reading anywhere else is the fault `Fault.fmt`. An argument list
supplies what `va_arg` reads, a string with the bytes that can be read from its pointer;
reading what is not there is the fault `Fault.arg`.

The case of `%e` calls the formatter again, on two formats that contain no `%e`. As in
`consPutc`, the recursion is tied through a body that takes the inner formatter as a
parameter (`vprintfmtBody`), and one turn is enough.
-/

namespace Jos

/-! ### Characters -/

/-- A character constant. -/
def chr (c : Char) : Byte :=
  BitVec.ofNat 8 c.toNat

/-- A string constant, with its NUL. -/
def cstr (s : String) : List Byte :=
  s.toList.map chr ++ [0]

/-! ### Arguments -/

/-- Why a call goes wrong. -/
inductive Fault
  /-- a read outside the format string -/
  | fmt
  /-- an argument that is not supplied, or a read past the end of a string argument -/
  | arg
  /-- a loop that does not end -/
  | fuel
deriving DecidableEq

/-- An argument: an int or another 32-bit word (the null pointer is the word 0), a
`long long`, or a pointer with the bytes that can be read from it on. -/
inductive Arg
  | word (v : BitVec 32)
  | llong (v : BitVec 64)
  | str (p : List Byte)
deriving DecidableEq

/-- The arguments not read yet. -/
abbrev Args := List Arg

/-- `va_arg` of an int, a long, or a pointer to be printed. -/
def vaInt : Args → Except Fault (BitVec 32 × Args)
  | .word v :: ap => .ok (v, ap)
  | _ => .error .arg

/-- `va_arg` of a `long long`. -/
def vaLlong : Args → Except Fault (BitVec 64 × Args)
  | .llong v :: ap => .ok (v, ap)
  | _ => .error .arg

/-- `va_arg` of a string: `none` is `NULL`. -/
def vaStr : Args → Except Fault (Option (List Byte) × Args)
  | .str p :: ap => .ok (some p, ap)
  | .word v :: ap => if v = 0 then .ok (none, ap) else .error .arg
  | _ => .error .arg

/-- `getuint`. -/
def getuint (lflag : ℕ) (ap : Args) : Except Fault (BitVec 64 × Args) :=
  if 2 ≤ lflag then vaLlong ap
  else do
    let (v, ap) ← vaInt ap
    pure (v.setWidth 64, ap)

/-- `getint`. -/
def getint (lflag : ℕ) (ap : Args) : Except Fault (BitVec 64 × Args) :=
  if 2 ≤ lflag then vaLlong ap
  else do
    let (v, ap) ← vaInt ap
    pure (v.signExtend 64, ap)

/-! ### Numbers -/

variable {σ : Type} (putch : BitVec 32 → σ → σ)

/-- `printnum`, to a depth of `fuel` calls. -/
def printnumTo : ℕ → ℕ → ℕ → BitVec 32 → Byte → σ → σ
  | 0, _, _, _, _, s => s
  | fuel + 1, num, base, width, padc, s =>
      let s :=
        -- first recursively print all preceding (more significant) digits
        if base ≤ num then printnumTo fuel (num / base) base (width - 1) padc s
        -- print any needed pad characters before first digit
        else (putch (padc.signExtend 32))^[(width - 1).toInt.toNat] s
      putch (((cstr "0123456789abcdef").getD (num % base) 0).signExtend 32) s

/-- `printnum`. The number is below `2 ^ 64` and the base at least 2, so that there are at
most 64 nested calls. -/
def printnum (num base : ℕ) (width : BitVec 32) (padc : Byte) (s : σ) : σ :=
  printnumTo putch 64 num base width padc s

/-! ### Flags, width and precision -/

/-- The locals of `vprintfmt` that an escape sets. -/
structure Opts where
  padc : Byte
  width : BitVec 32
  precision : BitVec 32
  lflag : ℕ
  altflag : Bool

/-- What they are reset to at every `%`. -/
def Opts.init : Opts where
  padc := chr ' '
  width := -1
  precision := -1
  lflag := 0
  altflag := false

/-- The code at `process_precision`, with `precision` set to `v`. -/
def Opts.processPrecision (v : BitVec 32) (o : Opts) : Opts :=
  if o.width.toInt < 0 then { o with width := v, precision := -1 }
  else { o with precision := v }

def isDigit (ch : Byte) : Prop :=
  chr '0' ≤ ch ∧ ch ≤ chr '9'

instance (ch : Byte) : Decidable (isDigit ch) :=
  inferInstanceAs (Decidable (_ ∧ _))

/-- The value of a digit character. -/
def digitVal (ch : Byte) : BitVec 32 :=
  ch.setWidth 32 - (chr '0').setWidth 32

/-- Ends the loop that reads a number, if one is running. -/
def Opts.flush (num : Option (BitVec 32)) (o : Opts) : Opts :=
  match num with
  | none => o
  | some precision => o.processPrecision precision

/-- The cases of the switch that go back to `reswitch`: for a character that is one of
them, the number whose digits are being read, the locals and the arguments after it. -/
def flagCase (ch : Byte) (o : Opts) (ap : Args) :
    Option (Except Fault (Option (BitVec 32) × Opts × Args)) :=
  if ch = chr '-' then some (.ok (none, { o with padc := chr '-' }, ap))
  else if ch = chr '0' then some (.ok (none, { o with padc := chr '0' }, ap))
  else if isDigit ch then some (.ok (some (0 * 10 + digitVal ch), o, ap))
  else if ch = chr '*' then
    some do
      let (v, ap) ← vaInt ap
      pure (none, o.processPrecision v, ap)
  else if ch = chr '.' then
    some (.ok (none, if o.width.toInt < 0 then { o with width := 0 } else o, ap))
  else if ch = chr '#' then some (.ok (none, { o with altflag := true }, ap))
  else if ch = chr 'l' then some (.ok (none, { o with lflag := o.lflag + 1 }, ap))
  else none

/-- One character of an escape: a further digit of the number being read, or else a case
of the switch, once that number is in place. `none` when the character is no flag. -/
def flagStep (ch : Byte) (num : Option (BitVec 32)) (o : Opts) (ap : Args) :
    Option (Except Fault (Option (BitVec 32) × Opts × Args)) :=
  match num with
  | none => flagCase ch o ap
  | some precision =>
      if isDigit ch then some (.ok (some (precision * 10 + digitVal ch), o, ap))
      else flagCase ch (o.processPrecision precision) ap

/-- The scan from `reswitch` on, over the bytes of the format at `pos`: up to the first
character that is no flag. Returns the locals, that character, the position after it and
the arguments left. -/
def reswitch : List Byte → ℕ → Option (BitVec 32) → Opts → Args →
    Except Fault (Opts × Byte × ℕ × Args)
  | [], _, _, _, _ => .error .fmt
  | ch :: rest, pos, num, o, ap =>
      match flagStep ch num o ap with
      | none => .ok (o.flush num, ch, pos + 1, ap)
      | some r => do
          let (num, o, ap) ← r
          reswitch rest (pos + 1) num o ap

/-! ### Strings -/

/-- The loop that pads before a string, and the width it leaves. -/
def padLoop (c : BitVec 32) (width : BitVec 32) (s : σ) : σ × BitVec 32 :=
  ((putch c)^[width.toInt.toNat] s, if 0 < width.toInt then 0 else width)

/-- The loop over the characters of a string, and the width it leaves. -/
def strLoop (altflag : Bool) : List Byte → BitVec 32 → BitVec 32 → σ →
    Except Fault (σ × BitVec 32)
  | [], _, _, _ => .error .arg
  | b :: p, precision, width, s =>
      let ch : BitVec 32 := b.signExtend 32
      let s' :=
        if altflag ∧ (ch.toInt < 0x20 ∨ 0x7E < ch.toInt) then putch ((chr '?').signExtend 32) s
        else putch ch s
      if b = 0 then .ok (s, width)
      else if precision.toInt < 0 then strLoop altflag p precision (width - 1) s'
      else if 0 ≤ (precision - 1).toInt then strLoop altflag p (precision - 1) (width - 1) s'
      else .ok (s, width)

/-- The padding before a string, and the width it leaves. -/
def padBefore (o : Opts) (p : List Byte) (s : σ) : Except Fault (σ × BitVec 32) :=
  if 0 < o.width.toInt ∧ o.padc ≠ chr '-' then
    match strnlen p o.precision.toNat with
    | none => .error .arg
    | some n => .ok (padLoop putch (o.padc.signExtend 32) (o.width - BitVec.ofNat 32 n) s)
  else .ok (s, o.width)

/-- The case of `%s`, once the pointer is known not to be null. -/
def formatStr (o : Opts) (p : List Byte) (s : σ) : Except Fault σ := do
  let (s, width) ← padBefore putch o p s
  let (s, width) ← strLoop putch o.altflag p o.precision width s
  pure ((putch ((chr ' ').signExtend 32))^[width.toInt.toNat] s)

/-! ### Error codes -/

/-- `MAXERROR`. -/
abbrev maxError : ℕ := 7

/-- `error_string`. -/
def errorTable : List (Option (List Byte)) :=
  [none, some (cstr "unspecified error"), some (cstr "bad environment"),
    some (cstr "invalid parameter"), some (cstr "out of memory"),
    some (cstr "out of environments"), some (cstr "segmentation fault")]

/-- `error_string[err]`, at the address the index is scaled to. -/
def errorString (err : BitVec 32) : Option (List Byte) :=
  errorTable.getD ((4 * err).toNat / 4) none

/-- The case of `%e`, over the inner formatter. -/
def formatErr (printfmt : List Byte → Args → σ → Except Fault (σ × Args)) (err : BitVec 32)
    (s : σ) : Except Fault (σ × Args) :=
  let err := if err.toInt < 0 then -err else err
  match if maxError ≤ err.toInt then none else errorString err with
  | none => printfmt (cstr "error %d") [.word err] s
  | some p => printfmt (cstr "%s") [.str p] s

/-! ### The conversions -/

/-- The cases of the switch that convert an argument, over the inner formatter: the sink
and the arguments after it, or `none` for a character that is no conversion. -/
def convert (printfmt : List Byte → Args → σ → Except Fault (σ × Args)) (o : Opts) (ch : Byte)
    (ap : Args) (s : σ) : Option (Except Fault (σ × Args)) :=
  if ch = chr 'c' then
    some do
      let (v, ap) ← vaInt ap
      pure (putch v s, ap)
  else if ch = chr 'e' then
    some do
      let (err, ap) ← vaInt ap
      let (s, _) ← formatErr printfmt err s
      pure (s, ap)
  else if ch = chr 's' then
    some do
      let (p, ap) ← vaStr ap
      let s ← formatStr putch o (p.getD (cstr "(null)")) s
      pure (s, ap)
  else if ch = chr 'd' then
    some do
      let (num, ap) ← getint o.lflag ap
      if num.toInt < 0 then
        let s := putch ((chr '-').signExtend 32) s
        pure (printnum putch (-num).toNat 10 o.width o.padc s, ap)
      else pure (printnum putch num.toNat 10 o.width o.padc s, ap)
  else if ch = chr 'u' then
    some do
      let (num, ap) ← getuint o.lflag ap
      pure (printnum putch num.toNat 10 o.width o.padc s, ap)
  else if ch = chr 'o' then
    some do
      let (num, ap) ← getuint o.lflag ap
      pure (printnum putch num.toNat 8 o.width o.padc s, ap)
  else if ch = chr 'p' then
    some do
      let s := putch ((chr 'x').signExtend 32) (putch ((chr '0').signExtend 32) s)
      let (num, ap) ← vaInt ap
      pure (printnum putch num.toNat 16 o.width o.padc s, ap)
  else if ch = chr 'x' then
    some do
      let (num, ap) ← getuint o.lflag ap
      pure (printnum putch num.toNat 16 o.width o.padc s, ap)
  else if ch = chr '%' then some (.ok (putch (ch.setWidth 32) s, ap))
  else none

/-! ### The main loop -/

/-- The literal characters up to a `%`, over the bytes of the format at `pos`: the sink,
and the position after the `%` unless the NUL came first. -/
def literal : List Byte → ℕ → σ → Except Fault (σ × Option ℕ)
  | [], _, _ => .error .fmt
  | ch :: rest, pos, s =>
      if ch = chr '%' then .ok (s, some (pos + 1))
      else if ch = 0 then .ok (s, none)
      else literal rest (pos + 1) (putch (ch.setWidth 32) s)

/-- The loop of the default case, `for (; fmt[-1] != '%'; fmt--)`, with `fmt` at the
position given: the position after the `%`. -/
def rewind (fmt : List Byte) : ℕ → Except Fault ℕ
  | 0 => .error .fmt
  | pos + 1 =>
      match fmt[pos]? with
      | none => .error .fmt
      | some c => if c = chr '%' then .ok (pos + 1) else rewind fmt pos

/-- The loop of `vprintfmt`, for at most `fuel` rounds, over the inner formatter. -/
def scanLoop (printfmt : List Byte → Args → σ → Except Fault (σ × Args)) (fmt : List Byte) :
    ℕ → ℕ → Args → σ → Except Fault (σ × Args)
  | 0, _, _, _ => .error .fuel
  | fuel + 1, pos, ap, s => do
      match ← literal putch (fmt.drop pos) pos s with
      | (s, none) => pure (s, ap)
      | (s, some pos) =>
          -- process a %-escape sequence
          let (o, ch, pos, ap) ← reswitch (fmt.drop pos) pos none .init ap
          match convert putch printfmt o ch ap s with
          | some r => do
              let (s, ap) ← r
              scanLoop printfmt fmt fuel pos ap s
          | none => do
              -- unrecognized escape sequence - just print it literally
              let s := putch ((chr '%').signExtend 32) s
              let pos ← rewind fmt (pos - 1)
              scanLoop printfmt fmt fuel pos ap s

/-- The body of `vprintfmt`, over the inner formatter. Every round reads a `%` of the
format that no other round reads. -/
def vprintfmtBody (printfmt : List Byte → Args → σ → Except Fault (σ × Args)) (fmt : List Byte)
    (ap : Args) (s : σ) : Except Fault (σ × Args) :=
  scanLoop putch printfmt fmt (fmt.length + 1) 0 ap s

/-- `printfmt` as the case of `%e` reaches it: its two formats contain no `%e`. -/
def printfmtNested : List Byte → Args → σ → Except Fault (σ × Args) :=
  vprintfmtBody putch fun _ _ _ => .error .fuel

/-- `vprintfmt`: the sink after it, and the arguments not read. -/
def vprintfmt : List Byte → Args → σ → Except Fault (σ × Args) :=
  vprintfmtBody putch (printfmtNested putch)

/-- `printfmt`. -/
def printfmt : List Byte → Args → σ → Except Fault (σ × Args) :=
  vprintfmt putch

/-- The characters a format prints, and the arguments it does not read. -/
def output (fmt : List Byte) (ap : Args) : Except Fault (List (BitVec 32) × Args) :=
  vprintfmt (fun c out => out ++ [c]) fmt ap []

end Jos
