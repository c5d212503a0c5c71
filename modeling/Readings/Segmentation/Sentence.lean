import Readings.Build

/-!
# The grammar of sentences

A sentence over a vocabulary is a word, or a word followed by a sentence, and it has to
be the whole line. Every word is named, so that the words of a reading can be told apart.
-/

namespace Readings.Segmentation

/-- The name of the words in a sentence. -/
def wordKey : String :=
  "word"

/-- One word of the vocabulary. -/
def word (text : List Char) : Build Grammar := do
  Build.named wordKey (← Build.text text)

/-- A whole line of words. -/
def sentences (words : List Grammar) : Build Grammar := do
  let word ← Build.alternation words
  let sentence ← Build.alternation [word]
  Build.extend sentence (← Build.sequence [word, sentence])
  Build.fullMatch sentence

/-- A whole line of words from a vocabulary. -/
def segmenter (vocabulary : List (List Char)) : Build Grammar := do
  sentences (← vocabulary.mapM word)

/-- Why there is no segmenter. The only word that cannot be written is the empty one. -/
def refusal (error : BuildError) : String :=
  "invalid word " ++ Text.quote [] ++ ": " ++ error.message

end Readings.Segmentation
