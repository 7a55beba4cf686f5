import TargetSelector.UnknownName

/-! Entity types by their identifiers. An identifier is written bare or after its namespace. -/
namespace TargetSelector

inductive EntityType where
  | areaEffectCloud | armorStand | arrow | bat | bee | blaze | boat | cat | caveSpider
  | chestMinecart | chicken | cod | commandBlockMinecart | cow | creeper | dolphin | donkey
  | dragonFireball | drowned | egg | elderGuardian | endCrystal | enderDragon | enderPearl
  | enderman | endermite | evoker | evokerFangs | experienceBottle | experienceOrb | eyeOfEnder
  | fallingBlock | fireball | fireworkRocket | fishingBobber | fox | furnaceMinecart | ghast | giant
  | guardian | hoglin | hopperMinecart | horse | husk | illusioner | ironGolem | item | itemFrame
  | leashKnot | lightningBolt | llama | llamaSpit | magmaCube | minecart | mooshroom | mule | ocelot
  | painting | panda | parrot | phantom | pig | piglin | piglinBrute | pillager | player | polarBear
  | potion | pufferfish | rabbit | ravager | salmon | sheep | shulker | shulkerBullet | silverfish
  | skeleton | skeletonHorse | slime | smallFireball | snowGolem | snowball | spawnerMinecart
  | spectralArrow | spider | squid | stray | strider | tnt | tntMinecart | traderLlama | trident
  | tropicalFish | turtle | vex | villager | vindicator | wanderingTrader | witch | wither
  | witherSkeleton | witherSkull | wolf | zoglin | zombie | zombieHorse | zombieVillager
  | zombifiedPiglin
deriving DecidableEq

namespace EntityType

def all : List EntityType :=
  [.areaEffectCloud, .armorStand, .arrow, .bat, .bee, .blaze, .boat, .cat, .caveSpider,
   .chestMinecart, .chicken, .cod, .commandBlockMinecart, .cow, .creeper, .dolphin, .donkey,
   .dragonFireball, .drowned, .egg, .elderGuardian, .endCrystal, .enderDragon, .enderPearl,
   .enderman, .endermite, .evoker, .evokerFangs, .experienceBottle, .experienceOrb, .eyeOfEnder,
   .fallingBlock, .fireball, .fireworkRocket, .fishingBobber, .fox, .furnaceMinecart, .ghast,
   .giant, .guardian, .hoglin, .hopperMinecart, .horse, .husk, .illusioner, .ironGolem, .item,
   .itemFrame, .leashKnot, .lightningBolt, .llama, .llamaSpit, .magmaCube, .minecart, .mooshroom,
   .mule, .ocelot, .painting, .panda, .parrot, .phantom, .pig, .piglin, .piglinBrute, .pillager,
   .player, .polarBear, .potion, .pufferfish, .rabbit, .ravager, .salmon, .sheep, .shulker,
   .shulkerBullet, .silverfish, .skeleton, .skeletonHorse, .slime, .smallFireball, .snowGolem,
   .snowball, .spawnerMinecart, .spectralArrow, .spider, .squid, .stray, .strider, .tnt,
   .tntMinecart, .traderLlama, .trident, .tropicalFish, .turtle, .vex, .villager, .vindicator,
   .wanderingTrader, .witch, .wither, .witherSkeleton, .witherSkull, .wolf, .zoglin, .zombie,
   .zombieHorse, .zombieVillager, .zombifiedPiglin]

def name : EntityType → String
  | .areaEffectCloud => "area_effect_cloud"
  | .armorStand => "armor_stand"
  | .arrow => "arrow"
  | .bat => "bat"
  | .bee => "bee"
  | .blaze => "blaze"
  | .boat => "boat"
  | .cat => "cat"
  | .caveSpider => "cave_spider"
  | .chestMinecart => "chest_minecart"
  | .chicken => "chicken"
  | .cod => "cod"
  | .commandBlockMinecart => "command_block_minecart"
  | .cow => "cow"
  | .creeper => "creeper"
  | .dolphin => "dolphin"
  | .donkey => "donkey"
  | .dragonFireball => "dragon_fireball"
  | .drowned => "drowned"
  | .egg => "egg"
  | .elderGuardian => "elder_guardian"
  | .endCrystal => "end_crystal"
  | .enderDragon => "ender_dragon"
  | .enderPearl => "ender_pearl"
  | .enderman => "enderman"
  | .endermite => "endermite"
  | .evoker => "evoker"
  | .evokerFangs => "evoker_fangs"
  | .experienceBottle => "experience_bottle"
  | .experienceOrb => "experience_orb"
  | .eyeOfEnder => "eye_of_ender"
  | .fallingBlock => "falling_block"
  | .fireball => "fireball"
  | .fireworkRocket => "firework_rocket"
  | .fishingBobber => "fishing_bobber"
  | .fox => "fox"
  | .furnaceMinecart => "furnace_minecart"
  | .ghast => "ghast"
  | .giant => "giant"
  | .guardian => "guardian"
  | .hoglin => "hoglin"
  | .hopperMinecart => "hopper_minecart"
  | .horse => "horse"
  | .husk => "husk"
  | .illusioner => "illusioner"
  | .ironGolem => "iron_golem"
  | .item => "item"
  | .itemFrame => "item_frame"
  | .leashKnot => "leash_knot"
  | .lightningBolt => "lightning_bolt"
  | .llama => "llama"
  | .llamaSpit => "llama_spit"
  | .magmaCube => "magma_cube"
  | .minecart => "minecart"
  | .mooshroom => "mooshroom"
  | .mule => "mule"
  | .ocelot => "ocelot"
  | .painting => "painting"
  | .panda => "panda"
  | .parrot => "parrot"
  | .phantom => "phantom"
  | .pig => "pig"
  | .piglin => "piglin"
  | .piglinBrute => "piglin_brute"
  | .pillager => "pillager"
  | .player => "player"
  | .polarBear => "polar_bear"
  | .potion => "potion"
  | .pufferfish => "pufferfish"
  | .rabbit => "rabbit"
  | .ravager => "ravager"
  | .salmon => "salmon"
  | .sheep => "sheep"
  | .shulker => "shulker"
  | .shulkerBullet => "shulker_bullet"
  | .silverfish => "silverfish"
  | .skeleton => "skeleton"
  | .skeletonHorse => "skeleton_horse"
  | .slime => "slime"
  | .smallFireball => "small_fireball"
  | .snowGolem => "snow_golem"
  | .snowball => "snowball"
  | .spawnerMinecart => "spawner_minecart"
  | .spectralArrow => "spectral_arrow"
  | .spider => "spider"
  | .squid => "squid"
  | .stray => "stray"
  | .strider => "strider"
  | .tnt => "tnt"
  | .tntMinecart => "tnt_minecart"
  | .traderLlama => "trader_llama"
  | .trident => "trident"
  | .tropicalFish => "tropical_fish"
  | .turtle => "turtle"
  | .vex => "vex"
  | .villager => "villager"
  | .vindicator => "vindicator"
  | .wanderingTrader => "wandering_trader"
  | .witch => "witch"
  | .wither => "wither"
  | .witherSkeleton => "wither_skeleton"
  | .witherSkull => "wither_skull"
  | .wolf => "wolf"
  | .zoglin => "zoglin"
  | .zombie => "zombie"
  | .zombieHorse => "zombie_horse"
  | .zombieVillager => "zombie_villager"
  | .zombifiedPiglin => "zombified_piglin"

def index (e : EntityType) : Nat := all.idxOf e

def text (e : EntityType) : String := "minecraft:" ++ e.name

/-- The part of an identifier after its namespace; `none` for a namespace other than `minecraft`. -/
def bareName? (s : String) : Option String :=
  let cs := s.toList
  match cs.dropWhile (· ≠ ':') with
  | [] => some s
  | _ :: rest =>
    if cs.takeWhile (· ≠ ':') = "minecraft".toList then some (String.ofList rest) else none

def parse (s : String) : Except UnknownName EntityType :=
  match (bareName? s).bind fun n => all.find? fun e => e.name = n with
  | some e => .ok e
  | none => .error ⟨.entityType, s⟩

def sorted (es : List EntityType) : List EntityType :=
  es.mergeSort fun a b => a.index ≤ b.index

end EntityType

end TargetSelector
