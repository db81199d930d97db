import TiktokenCpp.Model.Definitions

/-!
# Encodings and models

The tables of `registry.cpp` and `model.cpp` with their lookups. The maps of
the tables are built from initializer lists and walked through in the
iteration order `order`.
-/

namespace TiktokenCpp

-- ---------------------------------------------------------------------------
-- Encodings
-- ---------------------------------------------------------------------------

def endoftext : Bytes := str "<|endoftext|>"
def fimPrefix : Bytes := str "<|fim_prefix|>"
def fimMiddle : Bytes := str "<|fim_middle|>"
def fimSuffix : Bytes := str "<|fim_suffix|>"
def endofprompt : Bytes := str "<|endofprompt|>"

/-- The split pattern of the encodings before `cl100k_base`. -/
def r50kPat : String :=
  "'s|'t|'re|'ve|'m|'ll|'d| ?\\p\x7bL\x7d+| ?\\p\x7bN\x7d+| ?[^\\s\\p\x7bL\x7d\\p\x7bN\x7d]+|\\s+(?!\\S)|\\s+"

/-- The split pattern of `cl100k_base`. -/
def cl100kPat : String :=
  "(?i:'s|'t|'re|'ve|'m|'ll|'d)|[^\\r\\n\\p\x7bL\x7d\\p\x7bN\x7d]?\\p\x7bL\x7d+|\\p\x7bN\x7d\x7b1,3\x7d| ?[^\\s\\p\x7bL\x7d\\p\x7bN\x7d]+[\\r\\n]*|\\s*[\\r\\n]+|\\s+(?!\\S)|\\s+"

/-- The last entry is an invalid placeholder. -/
def sEncodingParam (order : IterationOrder) : List EncodingParam :=
  [ { name := str "r50k_base"
      vocabN := some 50257
      patStr := str r50kPat
      bpeUrl := str "https://openaipublic.blob.core.windows.net/encodings/r50k_base.tiktoken"
      specialTokens := (UnorderedMap.empty.emplaceAll [(endoftext, 50256)]).shuffle order },
    { name := str "p50k_base"
      vocabN := some 50281
      patStr := str r50kPat
      bpeUrl := str "https://openaipublic.blob.core.windows.net/encodings/p50k_base.tiktoken"
      specialTokens := (UnorderedMap.empty.emplaceAll [(endoftext, 50256)]).shuffle order },
    { name := str "p50k_edit"
      vocabN := none
      patStr := str r50kPat
      bpeUrl := str "https://openaipublic.blob.core.windows.net/encodings/p50k_base.tiktoken"
      specialTokens := (UnorderedMap.empty.emplaceAll
        [(endoftext, 50256), (fimPrefix, 50281), (fimMiddle, 50282), (fimSuffix, 50283)]).shuffle
          order },
    { name := str "cl100k_base"
      vocabN := none
      patStr := str cl100kPat
      bpeUrl := str "https://openaipublic.blob.core.windows.net/encodings/cl100k_base.tiktoken"
      specialTokens := (UnorderedMap.empty.emplaceAll
        [(endoftext, 100257), (fimPrefix, 100258), (fimMiddle, 100259), (fimSuffix, 100260),
          (endofprompt, 100276)]).shuffle order },
    { name := str "error_name_for_nothing"
      vocabN := none
      patStr := []
      bpeUrl := []
      specialTokens := UnorderedMap.empty } ]

/-- `Registry::GetEncodingParam`; the placeholder is not searched. -/
def getEncodingParam (order : IterationOrder) (encodingName : Bytes) : Run EncodingParam :=
  match (sEncodingParam order).dropLast.find? fun p => p.name = encodingName with
  | some param => .ret param
  | none => throwGeneralException (str "Not find encoding parameters for: ") encodingName

-- ---------------------------------------------------------------------------
-- Models
-- ---------------------------------------------------------------------------

def modelPrefixToEncoding (order : IterationOrder) : UnorderedMap Bytes Bytes :=
  (UnorderedMap.empty.emplaceAll
    [ -- chat
      (str "gpt-4-", str "cl100k_base"),
      (str "gpt-3.5-turbo-", str "cl100k_base"),
      (str "gpt-35-turbo-", str "cl100k_base"),
      -- fine-tuned
      (str "ft:gpt-4", str "cl100k_base"),
      (str "ft:gpt-3.5-turbo", str "cl100k_base"),
      (str "ft:davinci-002", str "cl100k_base"),
      (str "ft:babbage-002", str "cl100k_base") ]).shuffle order

/-- The entries of `MODEL_TO_ENCODING`, which is only looked up in. -/
def modelToEncodingEntries : List (Bytes × Bytes) :=
  [ -- chat
    (str "gpt-4", str "cl100k_base"),
    (str "gpt-3.5-turbo", str "cl100k_base"),
    (str "gpt-35-turbo", str "cl100k_base"),
    -- base
    (str "davinci-002", str "cl100k_base"),
    (str "babbage-002", str "cl100k_base"),
    -- embeddings
    (str "text-embedding-ada-002", str "cl100k_base"),
    -- text
    (str "text-davinci-003", str "p50k_base"),
    (str "text-davinci-002", str "p50k_base"),
    (str "text-davinci-001", str "r50k_base"),
    (str "text-curie-001", str "r50k_base"),
    (str "text-babbage-001", str "r50k_base"),
    (str "text-ada-001", str "r50k_base"),
    (str "davinci", str "r50k_base"),
    (str "curie", str "r50k_base"),
    (str "babbage", str "r50k_base"),
    (str "ada", str "r50k_base"),
    -- code
    (str "code-davinci-002", str "p50k_base"),
    (str "code-davinci-001", str "p50k_base"),
    (str "code-cushman-002", str "p50k_base"),
    (str "code-cushman-001", str "p50k_base"),
    (str "davinci-codex", str "p50k_base"),
    (str "cushman-codex", str "p50k_base"),
    -- edit
    (str "text-davinci-edit-001", str "p50k_edit"),
    (str "code-davinci-edit-001", str "p50k_edit"),
    -- old embeddings
    (str "text-similarity-davinci-001", str "r50k_base"),
    (str "text-similarity-curie-001", str "r50k_base"),
    (str "text-similarity-babbage-001", str "r50k_base"),
    (str "text-similarity-ada-001", str "r50k_base"),
    (str "text-search-davinci-doc-001", str "r50k_base"),
    (str "text-search-curie-doc-001", str "r50k_base"),
    (str "text-search-babbage-doc-001", str "r50k_base"),
    (str "text-search-ada-doc-001", str "r50k_base"),
    (str "code-search-babbage-code-001", str "r50k_base"),
    (str "code-search-ada-code-001", str "r50k_base"),
    -- open source
    (str "gpt2", str "gpt2") ]

def modelToEncoding : UnorderedMap Bytes Bytes := UnorderedMap.empty.emplaceAll modelToEncodingEntries

/-- The name that `EncodingNameForModel` finds: by exact match or else by the
first matching prefix, in the order of the walk. Empty if there is none. -/
def findEncodingName (order : IterationOrder) (modelName : Bytes) : Bytes :=
  match modelToEncoding.find? modelName with
  | some name => name
  | none =>
    ((modelPrefixToEncoding order).entries.find? fun item => item.1.isPrefixOf modelName).elim []
      Prod.snd

/-- `Model::EncodingNameForModel` -/
def encodingNameForModel (order : IterationOrder) (modelName : Bytes) : Run Bytes :=
  let encodingName := findEncodingName order modelName
  if encodingName = [] then
    throwGeneralException (str "not find encoding name for model: ") modelName
  else .ret encodingName

end TiktokenCpp
