/-!
# Built-in programs

Small programs that the command line runs when it is given no file. One has an unknown variable and one has branches
of different types, to show what a report says then.
-/

namespace Monolet

/-- A program with a key to ask for it and a title to report it under. -/
structure Program where
  key : String
  title : String
  source : String

namespace Program

/-- The built-in programs, in the order they are listed and run. -/
def examples : List Program := [
  ⟨"int", "Just an Int", "1"⟩,
  ⟨"bool", "Just a Bool", "true"⟩,
  ⟨"string", "Just a String", "\"Hello world!\""⟩,
  ⟨"var", "Just a Var", "x"⟩,
  ⟨"let", "Simple let", "let x = 10 in\nx"⟩,
  ⟨"lambda", "Simple Lambda", "\\x -> x"⟩,
  ⟨"application", "Simple Application", "(\\x -> x) \"Hello\""⟩,
  ⟨"huge-if", "Huge if true", "
if true then
  \"HUGE\"
else
  \"smol\"
"⟩,
  ⟨"ill-typed-if", "Ill-typed if", "
if false then
  \"HUGE\"
else
  20
"⟩,
  ⟨"let-apply", "Let & Application", "
let identity = \\x -> x in
identity \"Hello friends\"
"⟩,
  ⟨"currying-1", "Currying 1", "
let const = \\x -> \\y -> x in
const 10
"⟩,
  ⟨"currying-2", "Currying 2", "
let const = \\x -> \\y -> x in
const 10 \"Hello friends\"
"⟩,
  ⟨"higher-order", "Higher order programming", "
let flip = \\f -> \\x -> \\y -> f y x in
let const = \\x -> \\y -> x in
flip const 10 \"Hello friends\"
"⟩,
  ⟨"fib", "Fibonacci", "
let fib = \\x ->
    if int_equals x 1 then
        1
    else if int_equals x 2 then
        1
    else
        add (fib (sub x 1)) (fib (sub x 2)) in
fib 15
"⟩,
  ⟨"bottles", "Ninety-nine Bottles", "
let getabeer = \\x ->
    if int_equals x 0 then
        \"Go to the store and buy some more,\\n99 bottles of beer on the wall.\\n\"
    else if int_equals x 1 then
        concat \"1 bottle of beer on the wall,\\n1 bottle of beer,\\nTake one down, pass it around,\\n0 bottle of beer on the wall.\\n\\n\" (getabeer 0)
    else
        let init = concat (int_to_string x) \" bottles of beer on the wall,\\n\" in
        let middle = concat (int_to_string x) \" bottles of beer,\\nTake one down, pass it around,\\n\" in
        let end = concat (int_to_string (sub x 1)) \" bottles of beer on the wall.\\n\\n\" in
        concat init (concat middle (concat end (getabeer (sub x 1))))
in
getabeer 99
"⟩]

/-- The built-in program with a given key. -/
def find? (key : String) : Option Program := examples.find? (·.key = key)

end Program

end Monolet
