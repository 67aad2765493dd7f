import FeatureTree.Gherkin.Dialect.Basic

/-!
# The dialects

The keyword lists of the dialects in which documents are written, each list in the order in which
its keywords are tried.

## Main results

* `Dialect.names_nodup`: every dialect has a name of its own
* `Dialect.ofName?_name`: a dialect is found under its name
-/

namespace FeatureTree

namespace Dialect

/-- The texts of a list of string literals. -/
def words (literals : List String) : List Text := literals.map Text.ofString

/-- All dialects. -/
def all : List Dialect := [
  { name := "en".toList
    feature := words
      ["Feature", "Business Need", "Ability"]
    background := words
      ["Background"]
    rule := words
      ["Rule"]
    scenario := words
      ["Example", "Scenario"]
    outline := words
      ["Scenario Outline", "Scenario Template"]
    examples := words
      ["Examples", "Scenarios"]
    given := words
      ["* ", "Given "]
    action := words
      ["* ", "When "]
    outcome := words
      ["* ", "Then "]
    conjunction := words
      ["* ", "And "]
    contrast := words
      ["* ", "But "] },
  { name := "en-au".toList
    feature := words
      ["Pretty much"]
    background := words
      ["First off"]
    rule := words
      ["Rule"]
    scenario := words
      ["Awww, look mate"]
    outline := words
      ["Reckon it's like"]
    examples := words
      ["You'll wanna"]
    given := words
      ["* ", "Y'know "]
    action := words
      ["* ", "It's just unbelievable "]
    outcome := words
      ["* ", "But at the end of the day I reckon "]
    conjunction := words
      ["* ", "Too right "]
    contrast := words
      ["* ", "Yeah nah "] },
  { name := "en-lol".toList
    feature := words
      ["OH HAI"]
    background := words
      ["B4"]
    rule := words
      ["Rule"]
    scenario := words
      ["MISHUN"]
    outline := words
      ["MISHUN SRSLY"]
    examples := words
      ["EXAMPLZ"]
    given := words
      ["* ", "I CAN HAZ "]
    action := words
      ["* ", "WEN "]
    outcome := words
      ["* ", "DEN "]
    conjunction := words
      ["* ", "AN "]
    contrast := words
      ["* ", "BUT "] },
  { name := "en-pirate".toList
    feature := words
      ["Ahoy matey!"]
    background := words
      ["Yo-ho-ho"]
    rule := words
      ["Rule"]
    scenario := words
      ["Heave to"]
    outline := words
      ["Shiver me timbers"]
    examples := words
      ["Dead men tell no tales"]
    given := words
      ["* ", "Gangway! "]
    action := words
      ["* ", "Blimey! "]
    outcome := words
      ["* ", "Let go and haul "]
    conjunction := words
      ["* ", "Aye "]
    contrast := words
      ["* ", "Avast! "] },
  { name := "en-old".toList
    feature := words
      ["Hwaet", "Hwæt"]
    background := words
      ["Aer", "Ær"]
    rule := words
      ["Rule"]
    scenario := words
      ["Swa"]
    outline := words
      ["Swa hwaer swa", "Swa hwær swa"]
    examples := words
      ["Se the", "Se þe", "Se ðe"]
    given := words
      ["* ", "Thurh ", "Þurh ", "Ðurh "]
    action := words
      ["* ", "Bæþsealf ", "Bæþsealfa ", "Bæþsealfe ", "Ciricæw ", "Ciricæwe ", "Ciricæwa "]
    outcome := words
      ["* ", "Tha ", "Þa ", "Ða ", "Tha the ", "Þa þe ", "Ða ðe "]
    conjunction := words
      ["* ", "Ond ", "7 "]
    contrast := words
      ["* ", "Ac "] },
  { name := "en-tx".toList
    feature := words
      ["This ain’t my first rodeo", "All gussied up"]
    background := words
      ["Lemme tell y'all a story"]
    rule := words
      ["Rule "]
    scenario := words
      ["All hat and no cattle"]
    outline := words
      ["Serious as a snake bite", "Busy as a hound in flea season"]
    examples := words
      ["Now that's a story longer than a cattle drive in July"]
    given := words
      ["Fixin' to ", "All git out "]
    action := words
      ["Quick out of the chute "]
    outcome := words
      ["There’s no tree but bears some fruit "]
    conjunction := words
      ["Come hell or high water "]
    contrast := words
      ["Well now hold on, I'll you what "] },
  { name := "fr".toList
    feature := words
      ["Fonctionnalité"]
    background := words
      ["Contexte"]
    rule := words
      ["Règle"]
    scenario := words
      ["Exemple", "Scénario"]
    outline := words
      ["Plan du scénario", "Plan du Scénario"]
    examples := words
      ["Exemples"]
    given := words
      ["* ", "Soit ", "Sachant que ", "Sachant qu'", "Sachant ", "Etant donné que ",
       "Etant donné qu'", "Etant donné ", "Etant donnée ", "Etant donnés ", "Etant données ",
       "Étant donné que ", "Étant donné qu'", "Étant donné ", "Étant donnée ", "Étant donnés ",
       "Étant données "]
    action := words
      ["* ", "Quand ", "Lorsque ", "Lorsqu'"]
    outcome := words
      ["* ", "Alors ", "Donc "]
    conjunction := words
      ["* ", "Et que ", "Et qu'", "Et "]
    contrast := words
      ["* ", "Mais que ", "Mais qu'", "Mais "] },
  { name := "de".toList
    feature := words
      ["Funktionalität", "Funktion"]
    background := words
      ["Grundlage", "Hintergrund", "Voraussetzungen", "Vorbedingungen"]
    rule := words
      ["Rule", "Regel"]
    scenario := words
      ["Beispiel", "Szenario"]
    outline := words
      ["Szenariogrundriss", "Szenarien"]
    examples := words
      ["Beispiele"]
    given := words
      ["* ", "Angenommen ", "Gegeben sei ", "Gegeben seien "]
    action := words
      ["* ", "Wenn "]
    outcome := words
      ["* ", "Dann "]
    conjunction := words
      ["* ", "Und "]
    contrast := words
      ["* ", "Aber "] },
  { name := "ja".toList
    feature := words
      ["フィーチャ", "機能"]
    background := words
      ["背景"]
    rule := words
      ["ルール"]
    scenario := words
      ["シナリオ"]
    outline := words
      ["シナリオアウトライン", "シナリオテンプレート", "テンプレ", "シナリオテンプレ"]
    examples := words
      ["例", "サンプル"]
    given := words
      ["* ", "前提"]
    action := words
      ["* ", "もし"]
    outcome := words
      ["* ", "ならば"]
    conjunction := words
      ["* ", "且つ", "かつ"]
    contrast := words
      ["* ", "然し", "しかし", "但し", "ただし"] },
  { name := "ru".toList
    feature := words
      ["Функция", "Функциональность", "Функционал", "Свойство", "Фича"]
    background := words
      ["Предыстория", "Контекст"]
    rule := words
      ["Правило"]
    scenario := words
      ["Пример", "Сценарий"]
    outline := words
      ["Структура сценария", "Шаблон сценария"]
    examples := words
      ["Примеры", "Значения"]
    given := words
      ["* ", "Допустим ", "Дано ", "Пусть "]
    action := words
      ["* ", "Когда ", "Если "]
    outcome := words
      ["* ", "То ", "Затем ", "Тогда "]
    conjunction := words
      ["* ", "И ", "К тому же ", "Также "]
    contrast := words
      ["* ", "Но ", "А ", "Иначе "] },
  { name := "ar".toList
    feature := words
      ["خاصية"]
    background := words
      ["الخلفية"]
    rule := words
      ["Rule"]
    scenario := words
      ["مثال", "سيناريو"]
    outline := words
      ["سيناريو مخطط"]
    examples := words
      ["امثلة"]
    given := words
      ["* ", "بفرض "]
    action := words
      ["* ", "متى ", "عندما "]
    outcome := words
      ["* ", "اذاً ", "ثم "]
    conjunction := words
      ["* ", "و "]
    contrast := words
      ["* ", "لكن "] },
  { name := "zh-CN".toList
    feature := words
      ["功能"]
    background := words
      ["背景"]
    rule := words
      ["Rule", "规则"]
    scenario := words
      ["场景", "剧本"]
    outline := words
      ["场景大纲", "剧本大纲"]
    examples := words
      ["例子"]
    given := words
      ["* ", "假如", "假设", "假定"]
    action := words
      ["* ", "当"]
    outcome := words
      ["* ", "那么"]
    conjunction := words
      ["* ", "而且", "并且", "同时"]
    contrast := words
      ["* ", "但是"] },
  { name := "em".toList
    feature := words
      ["📚"]
    background := words
      ["💤"]
    rule := words
      ["Rule"]
    scenario := words
      ["🥒", "📕"]
    outline := words
      ["📖"]
    examples := words
      ["📓"]
    given := words
      ["* ", "😐"]
    action := words
      ["* ", "🎬"]
    outcome := words
      ["* ", "🙏"]
    conjunction := words
      ["* ", "😂"]
    contrast := words
      ["* ", "😔"] }
]

/-- The dialect of a name; names are compared exactly. -/
def ofName? (name : Text) : Option Dialect := all.find? (·.name = name)

/-- English, the dialect of a document that names none. -/
def english : Dialect := all.headD default

/-- Every dialect has a name of its own. -/
theorem names_nodup : (all.map (·.name)).Nodup := by decide

/-- In a list without repeated names each dialect is the first of its name. -/
theorem find?_name_of_nodup {ds : List Dialect} (nodup : (ds.map (·.name)).Nodup) {d : Dialect}
    (h : d ∈ ds) : ds.find? (·.name = d.name) = some d := by
  induction ds with
  | nil => cases h
  | cons e ds ih =>
    rw [List.map_cons, List.nodup_cons] at nodup
    by_cases hn : e.name = d.name
    · rcases List.mem_cons.mp h with rfl | hd
      · simp
      · exact absurd (hn ▸ List.mem_map_of_mem hd) nodup.1
    · rcases List.mem_cons.mp h with rfl | hd
      · exact absurd rfl hn
      · rw [List.find?_cons_of_neg (by simpa using hn)]
        exact ih nodup.2 hd

/-- A dialect is found under its name. -/
theorem ofName?_name {d : Dialect} (h : d ∈ all) : ofName? d.name = some d :=
  find?_name_of_nodup names_nodup h

/-- Dialects of one name are one dialect. -/
theorem eq_of_name_eq {d d' : Dialect} (hd : d ∈ all) (hd' : d' ∈ all) (h : d.name = d'.name) :
    d = d' := by
  have hfound := ofName?_name hd
  rw [h, ofName?_name hd'] at hfound
  exact (Option.some.inj hfound).symm

end Dialect

end FeatureTree
