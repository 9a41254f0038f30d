import Xv6Memfs.User.Ulib

/-! # grep

`user/grep.c`: the matcher, and the loop that cuts what `read` delivers into lines.

The matcher only looks at two C strings, so it works on their bytes; the end of the list is
the terminating NUL. -/

namespace Xv6Memfs.Grep

open Ulib Function

def caret : Byte := 0x5e
def dollar : Byte := 0x24
def star : Byte := 0x2a
def newline : Byte := 0x0a

/-! ## The matcher -/

/-- `re[0]=='.' || re[0]==*text`, and then the rest of the pattern on the rest of the text. -/
def oneThen (c : Byte) (rest : Str → Bool) : Str → Bool
  | [] => false
  | t :: text => (c == dot || c == t) && rest text

/-- The loop of `matchstar(c, re, text)`, where `here` is `matchhere(re, _)`. -/
def starLoop (c : Byte) (here : Str → Bool) : Str → Bool
  | [] => here []
  | t :: text => here (t :: text) || ((t == c || c == dot) && starLoop c here text)

/-- Search for `re` at the beginning of `text`. -/
def matchhere : Str → Str → Bool
  | [], _ => true
  | [c], text => if c = dollar then text.isEmpty else oneThen c (matchhere []) text
  | c :: d :: re, text =>
    if d = star then starLoop c (matchhere re) text
    else oneThen c (matchhere (d :: re)) text

/-- Search for `c*re` at the beginning of `text`. -/
def matchstar (c : Byte) (re text : Str) : Bool := starLoop c (matchhere re) text

/-- The loop of `match`: `re` at every position, the end of the text included. -/
def searchLoop (re : Str) : Str → Bool
  | [] => matchhere re []
  | t :: text => matchhere re (t :: text) || searchLoop re text

/-- `match(re, text)`. -/
def matchText (re text : Str) : Bool :=
  if re.head? = some caret then matchhere re.tail text else searchLoop re text

/-! ## The loop over the input -/

def bufsize : Nat := 1024

/-- The state of `grep` between two `read` calls, and what it has written so far. -/
structure State where
  buf : Bytes
  m : Nat
  out : Str

def State.start : State := ⟨fun _ => 0, 0, []⟩

/-- `while((q = strchr(p, '\n')) != 0)`: returns the buffer, `p` and the output. -/
def linesLoop (pattern : Str) : Nat → Bytes → Nat → Str → Bytes × Nat × Str
  | 0, buf, p, out => (buf, p, out)
  | n + 1, buf, p, out =>
    match strchr buf newline bufsize p with
    | none => (buf, p, out)
    | some q =>
      let cut := update buf q 0
      if matchText pattern (str cut bufsize p) then
        let whole := update cut q newline
        linesLoop pattern n whole (q + 1) (out ++ bytes whole p (q + 1 - p))
      else
        linesLoop pattern n cut (q + 1) out

/-- `if(p == buf) m = 0; if(m > 0){ m -= p - buf; memmove(buf, p, m); }`. -/
def shift (m : Nat) : Bytes × Nat × Str → State
  | (buf, p, out) =>
    let m := if p = 0 then 0 else m
    if m > 0 then ⟨memmove 0 p (m - p) buf, m - p, out⟩ else ⟨buf, m, out⟩

/-- The body of the loop, when `read` has put `chunk` behind the first `m` bytes. -/
def turn (pattern : Str) (s : State) (chunk : Str) : State :=
  let m := s.m + chunk.length
  shift m (linesLoop pattern bufsize (update (put s.buf s.m chunk) m 0) 0 s.out)

/-- What `grep(pattern, fd)` writes when `read` delivers `chunks` and then the end. -/
def grep (pattern : Str) (chunks : List Str) : Str := (chunks.foldl (turn pattern) .start).out

/-- What successive `read(fd, buf+m, sizeof(buf)-m-1)` can deliver: never nothing, never more
than was asked for. -/
def Delivers (pattern : Str) : State → List Str → Prop
  | _, [] => True
  | s, chunk :: chunks =>
    chunk ≠ [] ∧ chunk.length ≤ bufsize - s.m - 1 ∧ Delivers pattern (turn pattern s chunk) chunks

end Xv6Memfs.Grep
