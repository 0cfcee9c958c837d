/-!
# The prelude

Declarations that programs start with besides the primitive ones: options,
orders, the usual functions on lists, and the structures `List`, `Option`,
`Int` and `Real`.
-/

namespace Sml

def preludeLines : List String :=
  [
    "datatype 'a option = NONE | SOME of 'a",
    "",
    "datatype order = LESS | EQUAL | GREATER",
    "",
    "fun not true = false",
    "  | not false = true",
    "",
    "fun f o g = fn x => f (g x)",
    "",
    "fun [] @ ys = ys",
    "  | (x :: xs) @ ys = x :: (xs @ ys)",
    "",
    "fun x before _ = x",
    "",
    "fun ignore _ = ()",
    "",
    "fun hd (x :: _) = x",
    "  | hd [] = raise Empty",
    "",
    "fun tl (_ :: xs) = xs",
    "  | tl [] = raise Empty",
    "",
    "fun null [] = true",
    "  | null _ = false",
    "",
    "fun length xs =",
    "  let",
    "    fun count ([], n) = n",
    "      | count (_ :: rest, n) = count (rest, n + 1)",
    "  in",
    "    count (xs, 0)",
    "  end",
    "",
    "fun rev xs =",
    "  let",
    "    fun go ([], done) = done",
    "      | go (y :: ys, done) = go (ys, y :: done)",
    "  in",
    "    go (xs, [])",
    "  end",
    "",
    "fun map f [] = []",
    "  | map f (x :: xs) = f x :: map f xs",
    "",
    "fun app f [] = ()",
    "  | app f (x :: xs) = (f x; app f xs)",
    "",
    "fun foldl f init [] = init",
    "  | foldl f init (x :: xs) = foldl f (f (x, init)) xs",
    "",
    "fun foldr f init [] = init",
    "  | foldr f init (x :: xs) = f (x, foldr f init xs)",
    "",
    "fun filter p [] = []",
    "  | filter p (x :: xs) = if p x then x :: filter p xs else filter p xs",
    "",
    "fun valOf (SOME x) = x",
    "  | valOf NONE = raise Option",
    "",
    "fun isSome (SOME _) = true",
    "  | isSome NONE = false",
    "",
    "fun getOpt (SOME x, _) = x",
    "  | getOpt (NONE, default) = default",
    "",
    "structure List =",
    "struct",
    "  exception Empty = Empty",
    "",
    "  val hd = hd",
    "  val tl = tl",
    "  val null = null",
    "  val length = length",
    "  val rev = rev",
    "  val map = map",
    "  val app = app",
    "  val foldl = foldl",
    "  val foldr = foldr",
    "  val filter = filter",
    "",
    "  fun exists p [] = false",
    "    | exists p (x :: xs) = p x orelse exists p xs",
    "",
    "  fun all p [] = true",
    "    | all p (x :: xs) = p x andalso all p xs",
    "",
    "  fun find p [] = NONE",
    "    | find p (x :: xs) = if p x then SOME x else find p xs",
    "",
    "  fun nth ([], _) = raise Subscript",
    "    | nth (x :: xs, n) =",
    "        if n < 0 then raise Subscript",
    "        else if n = 0 then x",
    "        else nth (xs, n - 1)",
    "",
    "  fun take (_, 0) = []",
    "    | take ([], _) = raise Subscript",
    "    | take (x :: xs, n) = x :: take (xs, n - 1)",
    "",
    "  fun drop (xs, 0) = xs",
    "    | drop ([], _) = raise Subscript",
    "    | drop (_ :: xs, n) = drop (xs, n - 1)",
    "",
    "  fun concat [] = []",
    "    | concat (xs :: rest) = xs @ concat rest",
    "end",
    "",
    "structure Option =",
    "struct",
    "  exception Option = Option",
    "",
    "  val getOpt = getOpt",
    "  val isSome = isSome",
    "  val valOf = valOf",
    "",
    "  fun map f (SOME x) = SOME (f x)",
    "    | map f NONE = NONE",
    "end",
    "",
    "structure Int =",
    "struct",
    "  val toString = intToString",
    "  val abs = fn (x : int) => abs x",
    "end",
    "",
    "structure Real =",
    "struct",
    "  val toString = realToString",
    "  val fromInt = real",
    "  val floor = floor",
    "  val round = round",
    "end"
  ]

/-- The prelude is read like any input. -/
def preludeText : String :=
  "\n".intercalate preludeLines ++ "\n"

end Sml
