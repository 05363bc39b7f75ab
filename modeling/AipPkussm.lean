import AipPkussm.ChatPipeLossProofs
import AipPkussm.ChatPipeProgressProofs
import AipPkussm.ChatSegmentProofs
import AipPkussm.ChatBroadcastProofs
import AipPkussm.ChatGetProofs
import AipPkussm.FtpAccountProofs
import AipPkussm.HandlerTableProofs
import AipPkussm.ChatIndexProofs
import AipPkussm.ChatReadersProofs
import AipPkussm.TracerouteIndexProofs
import AipPkussm.TracerouteLinesProofs
import AipPkussm.TracerouteRecordProofs
import AipPkussm.TracerouteProbeProofs
import AipPkussm.ChatReassemblyProofs
import AipPkussm.ChatDisplayProofs
import AipPkussm.FtpReceiveProofs
import AipPkussm.FtpBoundsProofs
import AipPkussm.FtpStoreProofs
import AipPkussm.FtpSizesProofs
import AipPkussm.EngWordsSeparatorProofs
import AipPkussm.EngWordsSeparatorRegexProofs
import AipPkussm.LsTreeProofs
import AipPkussm.LsTreeLinksProofs
import AipPkussm.LsTreeOrderProofs
import AipPkussm.ChatLabelProofs
import AipPkussm.ChatSecrecyProofs
import AipPkussm.TracerouteAddressProofs
import AipPkussm.TracerouteLeftoverProofs
import AipPkussm.ChatListSoloProofs
import AipPkussm.FtpDiskProofs
import AipPkussm.LsLProofs
import AipPkussm.FtpConsoleProofs
import AipPkussm.WordReportProofs
import AipPkussm.ChatRoomProofs
import AipPkussm.TracerouteSurveyProofs
