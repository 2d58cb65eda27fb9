/-!
The parts of a text between the occurrences of one character.
-/
namespace KeyedBlocks.Parts

def consHead (c : Char) : List (List Char) → List (List Char)
  | [] => [[c]]
  | part :: parts => (c :: part) :: parts

def splitAt (mark : Char) : List Char → List (List Char)
  | [] => [[]]
  | c :: rest => if c = mark then [] :: splitAt mark rest else consHead c (splitAt mark rest)

def join (mark : Char) : List (List Char) → List Char
  | [] => []
  | [part] => part
  | part :: parts => part ++ mark :: join mark parts

end KeyedBlocks.Parts
